import Kconfig.Proofs.Model.Strung
/-!
Links that grow while the files are read.

The links of a new node stand behind those of all others, and lead to the node around it only. The
node before it is linked to it when it has been read. What stands inside a block is linked to the
block's node first, as if it came after it, and is put below it when the block ends. Once all is
read, the links lead through the trees of the blocks.
-/
namespace Kconfig

/-- The links of the nodes that were read grow by trees inside a node and after another one, up to
the last of their roots. -/
inductive Grows :
    NodeId → NodeId → Array Links → List Tree → NodeId → Array Links → Prop
  | nil (p prev : NodeId) (a : Array Links) : Grows p prev a [] prev a
  | leaf {p prev n last : NodeId} {a b : Array Links} {ts : List Tree} :
      Grows p n ((a.push { parent := some p }).modify prev ({ · with next := some n })) ts last b →
      Grows p prev a (.node n [] :: ts) last b
  | block {p prev n inner last : NodeId} {a b c : Array Links} {children ts : List Tree} :
      Grows n n (a.push { parent := some p }) children inner b →
      Grows p n (((b.modify inner ({ · with next := none })).modify n
        fun l => { l with first := l.next }).modify prev ({ · with next := some n })) ts last c →
      Grows p prev a (.node n children :: ts) last c

namespace Grows
variable {m : Model} {p prev n mid last : NodeId} {a b c : Array Links} {ts us : List Tree}

theorem append (h : Grows p prev a ts mid b) (h' : Grows p mid b us last c) :
    Grows p prev a (ts ++ us) last c := by
  induction h with
  | nil => exact h'
  | leaf _ ih => exact .leaf (ih h')
  | block hbelow _ _ ih => exact .block hbelow (ih h')

theorem size_eq (h : Grows p prev a ts last b) :
    b.size = a.size + (Tree.forestIds ts).length := by
  induction h with
  | nil => rfl
  | leaf _ ih =>
    rw [ih, Tree.forestIds_cons, Array.size_modify, Array.size_push, List.length_cons]
    simp only [Tree.forestIds, List.nil_append]
    omega
  | block _ _ ihbelow ih =>
    rw [ih, Tree.forestIds_cons, List.length_cons, List.length_append]
    simp only [Array.size_modify]
    rw [ihbelow, Array.size_push]
    omega

/-- The last of some nodes side by side that come after a node. -/
theorem last_cons (t : Tree) (ts : List Tree) (prev : NodeId) :
    ((t :: ts).getLast?.map Tree.id).getD prev = (ts.getLast?.map Tree.id).getD t.id := by
  rw [List.getLast?_cons]
  cases ts.getLast? <;> rfl

theorem last_eq (h : Grows p prev a ts last b) : last = (ts.getLast?.map Tree.id).getD prev := by
  induction h with
  | nil => rfl
  | leaf _ ih => exact ih.trans (last_cons (.node _ _) _ _).symm
  | block _ _ _ ih => exact ih.trans (last_cons (.node _ _) _ _).symm

end Grows

namespace Model
variable {m : Model} {p prev n last : NodeId} {a b c : Array Links} {ts children : List Tree}

@[simp] theorem withLinks_modify (m : Model) (a : Array Links) (n : NodeId) (f : Links → Links) :
    m.withLinks (a.modify n f) = (m.withLinks a).setLinks n f := rfl

@[simp] theorem withLinks_size (m : Model) (a : Array Links) :
    (m.withLinks a).table.size = a.size := rfl

theorem linksOf_push (m : Model) (a : Array Links) (l : Links) :
    (m.withLinks (a.push l)).linksOf a.size = l := by
  simp [linksOf, withLinks]

theorem linksOf_push_of_lt {k : NodeId} (l : Links) (h : k < a.size) :
    (m.withLinks (a.push l)).linksOf k = (m.withLinks a).linksOf k := by
  simp only [linksOf, withLinks]
  rw [Array.getElem?_push_lt h, Array.getElem?_eq_getElem h]

/-- The nodes of the trees are those that come next. -/
def Consecutive (a : Array Links) (ts : List Tree) : Prop :=
  Tree.forestIds ts = List.range' a.size (Tree.forestIds ts).length

theorem Consecutive.le (h : Consecutive a ts) {k : NodeId} (hk : k ∈ Tree.forestIds ts) :
    a.size ≤ k := by
  rw [h] at hk
  exact (List.mem_range'_1.mp hk).1

theorem Consecutive.nodup (h : Consecutive a ts) : (Tree.forestIds ts).Nodup := by
  rw [h]
  exact List.nodup_range'

theorem Consecutive.cons (h : Consecutive a (.node n children :: ts)) : n = a.size ∧
    (∀ l, Consecutive (a.push l) children) ∧
      ∀ b : Array Links, b.size = a.size + 1 + (Tree.forestIds children).length → Consecutive b ts := by
  rw [Consecutive, Tree.forestIds_cons, List.length_cons, List.range'_succ, List.length_append,
    ← List.range'_append_1] at h
  obtain ⟨hn, h⟩ := List.cons.inj h
  obtain ⟨hchildren, hts⟩ := List.append_inj h (List.length_range').symm
  refine ⟨hn, fun l => ?_, fun b hb => ?_⟩
  · rwa [Consecutive, Array.size_push]
  · rwa [Consecutive, hb]

/-- The links lead through trees that stand after a node; those of other nodes are as before. -/
structure Grown (m : Model) (p prev : NodeId) (ts : List Tree) (last : NodeId)
    (a b : Array Links) : Prop where
  chain : (m.withLinks b).Chain p ((m.withLinks b).linksOf last).next ts
  before : (m.withLinks b).linksOf prev = { (m.withLinks a).linksOf prev with
    next := (Tree.firstId? ts).or ((m.withLinks a).linksOf prev).next }
  others : ∀ k < a.size, k ≠ prev → (m.withLinks b).linksOf k = (m.withLinks a).linksOf k

namespace Grown

theorem nil (m : Model) (p prev : NodeId) (a : Array Links) : m.Grown p prev [] prev a a :=
  ⟨.nil _ _ _, rfl, fun _ _ _ => rfl⟩

/-- One more tree at the front: its node is read, with what stands below it, and linked to. -/
theorem cons {d : Array Links} (hnext : Consecutive a (.node n children :: ts)) (hprev : prev < a.size)
    (hsize : d.size = a.size + 1 + (Tree.forestIds children).length)
    (hparent : ((m.withLinks d).linksOf n).parent = some p)
    (hfirst : ((m.withLinks d).linksOf n).first = Tree.firstId? children)
    (hbelow : (m.withLinks d).Chain n none children)
    (hbefore : (m.withLinks d).linksOf prev =
      { (m.withLinks a).linksOf prev with next := some n })
    (hothers : ∀ k < a.size, k ≠ prev → (m.withLinks d).linksOf k = (m.withLinks a).linksOf k)
    (h : Grows p n d ts last b) (hgrown : m.Grown p n ts last d b) :
    m.Grown p prev (.node n children :: ts) last a b := by
  obtain ⟨rfl, -, hrest⟩ := hnext.cons
  have hle : d.size ≤ b.size := h.size_eq ▸ Nat.le_add_right ..
  have hlt : ∀ k < a.size, k < d.size := fun k hk => Nat.lt_of_lt_of_le hk (by omega)
  have hnodup := hnext.nodup
  rw [Tree.forestIds_cons, List.nodup_cons, List.mem_append, not_or, List.nodup_append] at hnodup
  obtain ⟨⟨hnBelow, hnBeside⟩, -, -, hdisjoint⟩ := hnodup
  refine ⟨.cons ⟨?_, ?_, ?_, hgrown.chain, hnBelow, hnBeside,
    fun k hk hk' => hdisjoint k hk k hk' rfl⟩, ?_, fun k hk hne => ?_⟩
  · have hnext : (Tree.firstId? ts).or ((m.withLinks d).linksOf a.size).next =
        (Tree.firstId? ts).or ((m.withLinks b).linksOf last).next := by
      cases ts with
      | nil =>
        rw [h.last_eq]
        exact (congrArg Links.next hgrown.before).symm
      | cons t ts => rfl
    rw [hgrown.before]
    dsimp only
    rw [hparent, hfirst, hnext]
  · show a.size < b.size
    omega
  · refine hbelow.congr hle fun k hk => hgrown.others k ?_ fun heq => hnBelow (heq ▸ hk)
    exact hbelow.lt k hk
  · rw [hgrown.others prev (hlt prev hprev) (Nat.ne_of_lt hprev), hbefore]
    rfl
  · rw [hgrown.others k (hlt k hk) (Nat.ne_of_lt hk), hothers k hk hne]

/-- What a block's node was linked to stands below it when the last of it leads nowhere. -/
theorem closed {n inner : NodeId} (hn : n = a.size) (hnext : Consecutive (a.push { parent := some p }) ts)
    (h : Grows n n (a.push { parent := some p }) ts inner b)
    (hgrown : m.Grown n n ts inner (a.push { parent := some p }) b) :
    (m.withLinks (b.modify inner ({ · with next := none }))).Chain n none ts ∧
      (m.withLinks (b.modify inner ({ · with next := none }))).linksOf n =
        ⟨some p, none, Tree.firstId? ts⟩ ∧
      ∀ k < a.size, (m.withLinks (b.modify inner ({ · with next := none }))).linksOf k =
        (m.withLinks a).linksOf k := by
  subst hn
  have hsize : b.size = a.size + 1 + (Tree.forestIds ts).length := by
    rw [h.size_eq, Array.size_push]
  have hlt : a.size < b.size := by omega
  have hnode : (m.withLinks b).linksOf a.size = ⟨some p, none, Tree.firstId? ts⟩ := by
    rw [hgrown.before, linksOf_push, Option.or_none]
  have hbefore : ∀ k < a.size, (m.withLinks b).linksOf k = (m.withLinks a).linksOf k := by
    intro k hk
    rw [hgrown.others k (Array.size_push _ ▸ Nat.lt_succ_of_lt hk) (Nat.ne_of_lt hk),
      linksOf_push_of_lt _ hk]
  rw [withLinks_modify]
  cases hts : ts.getLast? with
  | none =>
    cases List.getLast?_eq_none_iff.mp hts
    obtain rfl : inner = a.size := h.last_eq
    refine ⟨.nil _ _ _, ?_, fun k hk => ?_⟩
    · rw [linksOf_setLinks_self hlt, hnode]
      rfl
    · rw [linksOf_setLinks_of_ne (Nat.ne_of_gt hk), hbefore k hk]
  | some t =>
    have hinner : ts.getLast?.map Tree.id = some inner := by
      rw [h.last_eq, hts]
      rfl
    have hlt : a.size < inner := by
      have hmem := hnext.le (Tree.mem_forestIds_of_getLast? hinner)
      rwa [Array.size_push] at hmem
    refine ⟨hgrown.chain.setNext hinner, ?_, fun k hk => ?_⟩
    · rw [linksOf_setLinks_of_ne (Nat.ne_of_gt hlt), hnode]
    · rw [linksOf_setLinks_of_ne (Nat.ne_of_gt (Nat.lt_trans hk hlt)), hbefore k hk]

end Grown

/-- The links that grow lead through the trees. -/
theorem grown_of_grows (h : Grows p prev a ts last b) :
    prev < a.size → Consecutive a ts → m.Grown p prev ts last a b := by
  induction h with
  | nil p prev a => exact fun _ _ => .nil m p prev a
  | @leaf p prev n last a b ts h ih =>
    intro hprev hnext
    obtain ⟨rfl, -, hts⟩ := hnext.cons
    have hne : prev ≠ a.size := Nat.ne_of_lt hprev
    have hsize : ((a.push { parent := some p }).modify prev ({ · with next := some a.size })).size =
        a.size + 1 := by rw [Array.size_modify, Array.size_push]
    have hnode : (m.withLinks ((a.push { parent := some p }).modify prev
        ({ · with next := some a.size }))).linksOf a.size = { parent := some p } := by
      rw [withLinks_modify, linksOf_setLinks_of_ne hne, linksOf_push]
    refine .cons hnext hprev hsize (by rw [hnode]) (by rw [hnode]; rfl) (.nil _ _ _) ?_ ?_ h
      (ih ?_ (hts _ hsize))
    · rw [withLinks_modify, linksOf_setLinks_self, linksOf_push_of_lt _ hprev]
      rw [withLinks_size, Array.size_push]
      exact Nat.lt_succ_of_lt hprev
    · intro k hk hkprev
      rw [withLinks_modify, linksOf_setLinks_of_ne hkprev.symm, linksOf_push_of_lt _ hk]
    · rw [hsize]
      exact Nat.lt_succ_self _
  | @block p prev n inner last a b c children ts hbelow h ihbelow ih =>
    intro hprev hnext
    obtain ⟨rfl, hchildren, hts⟩ := hnext.cons
    have hne : prev ≠ a.size := Nat.ne_of_lt hprev
    have hsize := hbelow.size_eq
    rw [Array.size_push] at hsize
    have hlt : a.size < b.size := by omega
    obtain ⟨hchain, hnode, hbefore⟩ := Grown.closed rfl (hchildren _) hbelow
      (ihbelow (Array.size_push _ ▸ Nat.lt_succ_self _) (hchildren _))
    have hnotin : a.size ∉ Tree.forestIds children := fun hmem => by
      have hle := (hchildren { parent := some p }).le hmem
      rw [Array.size_push] at hle
      exact Nat.not_succ_le_self _ hle
    have hprevNotin : prev ∉ Tree.forestIds children := fun hmem => by
      have hle := (hchildren { parent := some p }).le hmem
      rw [Array.size_push] at hle
      exact Nat.not_succ_le_self _ (Nat.le_trans hle (Nat.le_of_lt hprev))
    have hnode' : (m.withLinks (((b.modify inner ({ · with next := none })).modify a.size
        fun l => { l with first := l.next }).modify prev
          ({ · with next := some a.size }))).linksOf a.size =
        ⟨some p, Tree.firstId? children, Tree.firstId? children⟩ := by
      rw [withLinks_modify, linksOf_setLinks_of_ne hne, withLinks_modify, linksOf_setLinks_self,
        hnode]
      rw [withLinks_size, Array.size_modify]
      exact hlt
    refine .cons hnext hprev ?_ (by rw [hnode']) (by rw [hnode']) ?_ ?_ ?_ h (ih ?_ (hts _ ?_))
    · simp only [Array.size_modify, hsize]
    · rw [withLinks_modify, withLinks_modify]
      exact (hchain.setLinks hnotin).setLinks hprevNotin
    · rw [withLinks_modify, linksOf_setLinks_self, withLinks_modify,
        linksOf_setLinks_of_ne hne.symm, hbefore prev hprev]
      rw [withLinks_size, Array.size_modify, Array.size_modify]
      exact Nat.lt_trans hprev hlt
    · intro k hk hkprev
      rw [withLinks_modify, linksOf_setLinks_of_ne hkprev.symm, withLinks_modify,
        linksOf_setLinks_of_ne (Nat.ne_of_gt hk), hbefore k hk]
    · simp only [Array.size_modify, hlt]
    · simp only [Array.size_modify, hsize]

/-- The links after the top file: they have grown by trees, the first of which stands below the top
node then, and the last of which leads nowhere. -/
def Connects (table : Array Links) (ts : List Tree) : Prop :=
  ∃ last links, Grows 0 0 #[{}] ts last links ∧
    table = ((links.modify 0 fun l => { l with first := l.next }).modify last
      ({ · with next := none })).modify 0 ({ · with next := none })

/-- Once all is read, the links lead through the trees of the files. -/
theorem rooted_of_connects {table : Array Links} (hconnects : Connects table ts)
    (hids : Tree.forestIds ts = List.range' 1 (m.nodes.size - 1)) (hpos : 0 < m.nodes.size) :
    (m.withLinks table).Rooted ts := by
  obtain ⟨last, b, h, rfl⟩ := hconnects
  have hlength : (Tree.forestIds ts).length = m.nodes.size - 1 := by
    rw [hids, List.length_range']
  have hnext : Consecutive #[{}] ts := by
    rw [Consecutive, hlength]
    exact hids
  have hgrown := grown_of_grows (m := m) h Nat.one_pos hnext
  have hzero : 0 ∉ Tree.forestIds ts := fun hmem => Nat.not_succ_le_zero 0 (hnext.le hmem)
  have hb : b.size = 1 + (Tree.forestIds ts).length := h.size_eq
  have hlt : 0 < b.size := hb ▸ Nat.lt_of_lt_of_le Nat.one_pos (Nat.le_add_right ..)
  have htop : (m.withLinks b).linksOf 0 = ⟨none, none, Tree.firstId? ts⟩ := by
    rw [hgrown.before]
    exact congrArg (Links.mk none none) (Option.or_none ..)
  -- the top node first has the first of the trees below it, then the last root leads nowhere
  let m₁ := (m.withLinks b).setLinks 0 fun l => { l with first := l.next }
  have hfirst : m₁.linksOf 0 = ⟨none, Tree.firstId? ts, Tree.firstId? ts⟩ := by
    rw [linksOf_setLinks_self hlt, htop]
  have hchain : m₁.Chain 0 ((m.withLinks b).linksOf last).next ts := hgrown.chain.setLinks hzero
  have hsize₁ : m₁.table.size = b.size := Array.size_modify
  let m₂ := m₁.setLinks last ({ · with next := none })
  have hsize₂ : m₂.table.size = b.size := Array.size_modify.trans hsize₁
  have hpast : ∃ next, m₂.linksOf 0 = ⟨none, Tree.firstId? ts, next⟩ ∧ m₂.Chain 0 none ts := by
    cases hts : ts.getLast? with
    | none =>
      cases List.getLast?_eq_none_iff.mp hts
      obtain rfl : last = 0 := h.last_eq
      refine ⟨none, ?_, .nil _ _ _⟩
      rw [linksOf_setLinks_self (hsize₁ ▸ hlt), hfirst]
    | some t =>
      have hlast : ts.getLast?.map Tree.id = some last := by
        rw [h.last_eq, hts]
        rfl
      have hne : last ≠ 0 := fun heq => hzero (heq ▸ Tree.mem_forestIds_of_getLast? hlast)
      refine ⟨Tree.firstId? ts, ?_, hchain.setNext hlast⟩
      rw [linksOf_setLinks_of_ne hne, hfirst]
  obtain ⟨next, htop₂, hchain₂⟩ := hpast
  refine ⟨?_, ?_, hchain₂.setLinks hzero⟩
  · show (m₂.setLinks 0 _).linksOf 0 = _
    rw [linksOf_setLinks_self (hsize₂ ▸ hlt), htop₂]
  · exact Array.size_modify.trans (hsize₂.trans (by rw [hb, hlength]; exact Nat.add_sub_cancel' hpos))

end Model
end Kconfig
