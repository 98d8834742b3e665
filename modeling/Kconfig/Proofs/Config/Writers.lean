import Kconfig.Config.Save
import Kconfig.Config.Values
import Kconfig.Proofs.Config.Direct
import Kconfig.Proofs.Config.Pieces
import Kconfig.Proofs.Model.FirstPlaces
/-!
Whatever writes the values of a configuration writes those of the same symbols.

A configuration follows the menu tree, a header the definitions, and the values as JSON all nodes.
Each of them comes to the symbols whose values are written, in the order of their first definitions
and to each of them once; a header leaves out the bools that are `n`. This holds of all that is read,
also where an answer is out of date.
-/
namespace Kconfig
open Plan

variable {m : Model} {u : UserValues} {v : Valuation} {c d : Configuration} {s : SymbolId}
  {n : NodeId} {style : FileStyle}

/-- The symbols whose values are written, in the order of their first definitions. -/
def Model.written (m : Model) (v : Valuation) : List SymbolId :=
  m.defined.filter fun s => (v (.text (.symbol s))).isWritten

/-- Values of which configurations can hold no others: the text of a bool is `n` or `y`, and nothing
is written of a symbol without a type. -/
structure Model.Texts (m : Model) (v : Valuation) : Prop where
  bool : ∀ s, (m.symbol s).type = .bool →
    (v (.text (.symbol s))).value = "n" ∨ (v (.text (.symbol s))).value = "y"
  unknown : ∀ s, (m.symbol s).type = .unknown → (v (.text (.symbol s))).isWritten = false

theorem Model.texts_of_rule (hv : ∀ i, v (.text i) = (m.rule u (.text i)).result v) : m.Texts v := by
  have htext : ∀ s, v (.text (.symbol s)) = (m.textRule u (.symbol s)).result v := fun s => hv _
  refine ⟨fun s htype => ?_, fun s htype => ?_⟩
  · have hword : (v (.text (.symbol s))).value = levelWord (v (.level (.symbol s))).value := by
      rw [htext, textRule, htype]
      rfl
    rw [hword]
    cases (v (.level (.symbol s))).value
    · exact .inl rfl
    · exact .inr rfl
  · rw [htext, textRule, htype]
    rfl

/-! ### Configurations -/

namespace Model

/-- The symbols that are written are those that configurations have a line for. -/
theorem mem_written_iff (hs : s ∈ m.defined) :
    s ∈ m.written v ↔ (m.configLine style s).result v ≠ "" := by
  rw [written, List.mem_filter, and_iff_right hs, configLine_result]
  split
  · next h => exact iff_of_true h (assignmentLine_ne_empty _ _)
  · next h => exact iff_of_false h (not_not_intro rfl)

/-- In the order of the menu tree these are the symbols that are written. -/
theorem filterMap_writtenAt (hm : m.Walkable) (horder : m.InOrder) :
    m.order.filterMap (m.writtenAt v) = m.written v := by
  rw [written, ← firstSymbols hm.distinct hm.gathered horder, List.filter_filterMap,
    List.filterMap_filter]
  refine List.filterMap_congr fun n _ => ?_
  cases hs : m.symbolOf? n with
  | none => simp [writtenAt, hs]
  | some s =>
    by_cases hhead : (m.symbol s).nodes.head? = some n <;>
      simp [writtenAt, repeats, Option.filter_some, hs, hhead]

end Model

/-! ### Headers -/

/-- A value as a header shows it: a bool that is `y` as one, and a hexadecimal number marked. -/
def Symbol.headerValue (sym : Symbol) (value : String) : String :=
  match sym.type with
  | .bool => "1"
  | .string => "\"" ++ Text.escaped value ++ "\""
  | .hex => if "0x".isPrefixOf value || "0X".isPrefixOf value then value else "0x" ++ value
  | .int | .unknown => value

namespace Model

/-- The line that defines a symbol in a header. -/
def headerLine (m : Model) (v : Valuation) (style : FileStyle) (s : SymbolId) : String :=
  s!"#define {style.mark}{(m.symbol s).name} " ++
    (m.symbol s).headerValue (v (.text (.symbol s))).value ++ "\n"

/-- Whether a header leaves a symbol out that is written: it is a bool, and `n`. -/
def isOff (m : Model) (v : Valuation) (s : SymbolId) : Bool :=
  (m.symbol s).type = .bool ∧ (v (.text (.symbol s))).value = "n"

/-- The line that a header has for a symbol that is written. -/
theorem definitionLine_eq (hv : m.Texts v) (hwritten : (v (.text (.symbol s))).isWritten = true) :
    definitionLine style (m.symbol s) (v (.text (.symbol s))).value =
      if m.isOff v s then "" else m.headerLine v style s := by
  have htype : (m.symbol s).type ≠ .unknown := fun hunknown => by
    rw [hv.unknown s hunknown] at hwritten
    exact nomatch hwritten
  unfold definitionLine isOff headerLine Symbol.headerValue
  cases hs : (m.symbol s).type with
  | unknown => exact absurd hs htype
  | bool =>
    rcases hv.bool s hs with hvalue | hvalue
    · simp [hvalue]
    · simp [hvalue, String.append_assoc, toString]
  | string =>
    have hopen : ∀ rest : String, " \"" ++ rest = " " ++ ("\"" ++ rest) := fun rest =>
      (String.append_assoc : (" " ++ "\"") ++ rest = _)
    simp [String.append_assoc, toString, hopen]
  | int => simp [toString]
  | hex =>
    by_cases hmarked : ("0x".isPrefixOf (v (.text (.symbol s))).value ||
      "0X".isPrefixOf (v (.text (.symbol s))).value) = true <;> simp [hmarked, String.append_assoc]

/-- A header is its start and the lines of the symbols that it defines. -/
theorem headerText_result (hv : m.Texts v) : (m.headerText style).result v =
    style.header ++
      String.join (((m.written v).filter (!m.isOff v ·)).map (m.headerLine v style)) := by
  rw [headerText, joinLines_result, written]
  congr 1
  induction m.defined with
  | nil => rfl
  | cons s ss ih =>
    rw [List.map_cons, String.join_cons, ih, result_ask, List.filter_cons]
    cases hwritten : (v (.text (.symbol s))).isWritten with
    | false => simp
    | true =>
      rw [if_pos rfl, if_pos rfl, result_pure, definitionLine_eq hv hwritten, List.filter_cons]
      cases m.isOff v s <;> simp

end Model

/-! ### Values as JSON -/

/-- The name of the symbol of a node, if its value is written. -/
def Model.nameAt (m : Model) (v : Valuation) (n : NodeId) : Option String :=
  ((m.symbolOf? n).filter fun s => (v (.text (.symbol s))).isWritten).map fun s => (m.symbol s).name

/-- The names that are met along some nodes. -/
def Model.namesAt (m : Model) (v : Valuation) (ns : List NodeId) : List String :=
  firstOccurrences (ns.filterMap (m.nameAt v))

/-- One node adds the name at it, unless it was met before. -/
theorem Model.namesAt_concat (ns : List NodeId) : m.namesAt v (ns ++ [n]) =
    match m.nameAt v n with
    | none => m.namesAt v ns
    | some name =>
      if name ∈ m.namesAt v ns then m.namesAt v ns else m.namesAt v ns ++ [name] := by
  rw [namesAt, List.filterMap_append]
  cases hname : m.nameAt v n with
  | none => simp [hname, namesAt]
  | some name =>
    have hlast : List.filterMap (m.nameAt v) [n] = [name] := by simp [hname]
    have hmem : name ∈ m.namesAt v ns ↔ name ∈ ns.filterMap (m.nameAt v) :=
      ⟨mem_of_firstOccurrences, mem_firstOccurrences⟩
    rw [hlast, firstOccurrences_concat]
    by_cases hseen : name ∈ ns.filterMap (m.nameAt v)
    · rw [if_pos hseen, List.append_nil]
      exact (if_pos (hmem.mpr hseen)).symm
    · rw [if_neg hseen]
      exact (if_neg fun h => hseen (hmem.mp h)).symm

/-- Names belong to one defined symbol only. -/
theorem Model.Listed.name_inj (hl : m.Listed) {t : SymbolId} (hs : s ∈ m.defined)
    (ht : t ∈ m.defined) (h : (m.symbol s).name = (m.symbol t).name) : s = t := by
  have hfound := hl.named s hs
  rw [h, hl.named t ht] at hfound
  exact (Option.some.inj hfound).symm

/-- Going through all nodes one comes to the names of the symbols that are written. -/
theorem Model.namesAt_order (hl : m.Listed) (horder : m.InOrder) :
    m.namesAt v m.order = (m.written v).map fun s => (m.symbol s).name := by
  have hnames : m.order.filterMap (m.nameAt v) =
      (m.definitions.toList.filter fun s => (v (.text (.symbol s))).isWritten).map
        fun s => (m.symbol s).name := by
    rw [horder, List.filter_filterMap, List.map_filterMap]
    exact List.filterMap_congr fun n _ => rfl
  rw [namesAt, hnames, firstOccurrences_map, firstOccurrences_filter]
  · rfl
  · intro s hs t ht
    exact hl.name_inj (mem_firstOccurrences (List.mem_of_mem_filter hs))
      (mem_firstOccurrences (List.mem_of_mem_filter ht))

namespace Configuring

theorem yields_jsonValue (sym : Symbol) (value : String) :
    Yields (jsonValue sym value) d fun _ d' => d.SameMemory d' := by
  have hpure : ∀ json : Json, Yields (pure json : Configuring Json) d fun _ d' =>
      d.SameMemory d' := fun _ => .pure ⟨rfl, rfl, rfl⟩
  unfold jsonValue
  dsimp only
  split
  · exact .bind (.update ⟨rfl, rfl, rfl⟩) fun _ _ h => .pure h
  · split
    · exact hpure _
    · split
      · exact hpure _
      · exact .throw _
    · split
      · exact hpure _
      · exact .throw _
    · exact hpure _

/-- A node adds the name of its symbol to those that are there, if the value is written. -/
theorem yields_addValue (hsaid : d.Says v) (hmodel : d.model = m) {ns : List NodeId}
    {fields : List (String × Json)} (hfields : fields.map Prod.fst = m.namesAt v ns) :
    Yields (addValue fields n) d fun fields' d' => d'.Says v ∧ d'.model = m ∧
      fields'.map Prod.fst = m.namesAt v (ns ++ [n]) := by
  unfold addValue
  refine .bind_get ?_
  dsimp only
  rw [hmodel, Model.namesAt_concat]
  cases hentry : (m.node n).entry with
  | symbol s =>
    have hsymbol : m.symbolOf? n = some s := by rw [Model.symbolOf?, hentry]
    dsimp only
    refine .bind (Ends.yields (hsaid.ends_ask _)) fun answer d' h => ?_
    obtain ⟨rfl, hsaid', hmodel', -⟩ := h
    rw [hmodel] at hmodel'
    cases hwritten : (v (.text (.symbol s))).isWritten with
    | false =>
      have hname : m.nameAt v n = none := by
        simp [Model.nameAt, Option.filter_some, hsymbol, hwritten]
      rw [if_neg Bool.false_ne_true, hname]
      exact .pure ⟨hsaid', hmodel', hfields⟩
    | true =>
      have hname : m.nameAt v n = some (m.symbol s).name := by
        simp [Model.nameAt, Option.filter_some, hsymbol, hwritten]
      rw [if_pos rfl, hname]
      refine .bind (yields_jsonValue _ _) fun json d'' hsame => .pure ?_
      refine ⟨hsaid'.sameMemory hsame, hsame.model.trans hmodel', ?_⟩
      rw [Json.setField_keys, hfields]
  | _ =>
    have hname : m.nameAt v n = none := by simp [Model.nameAt, Model.symbolOf?, hentry]
    rw [hname]
    exact .pure ⟨hsaid, hmodel, hfields⟩

theorem yields_addValues : ∀ (ns : List NodeId) {d : Configuration} {done : List NodeId}
    {fields : List (String × Json)}, d.Says v → d.model = m →
    fields.map Prod.fst = m.namesAt v done →
    Yields (ns.foldlM addValue fields) d fun fields' _ =>
      fields'.map Prod.fst = m.namesAt v (done ++ ns)
  | [], _, _, _, _, _, hfields => .pure (by rwa [List.append_nil])
  | n :: ns, _, _, _, hsaid, hmodel, hfields => by
    rw [List.foldlM_cons]
    refine .bind (yields_addValue hsaid hmodel hfields) fun fields' d' h => ?_
    rw [List.append_cons]
    exact yields_addValues ns h.1 h.2.1 h.2.2

/-- The keys of the values are the names of the symbols that are written. -/
theorem yields_jsonValues (hsaid : d.Says v) (hmodel : d.model = m) (hl : m.Listed)
    (hroot : m.Linked) (horder : m.InOrder) : Yields jsonValues d fun json _ =>
      ∃ fields, json = .obj fields ∧
      fields.map Prod.fst = (m.written v).map fun s => (m.symbol s).name := by
  have hstart : List.map Prod.fst ([] : List (String × Json)) = m.namesAt v [] := rfl
  have hwalk : m.nodeIter false = some m.order :=
    Model.iterate_all (Model.length_order_lt hroot) (Model.route_order hroot)
  unfold jsonValues
  refine .bind_get ?_
  rw [hmodel, hwalk]
  refine .bind (yields_addValues m.order hsaid hmodel hstart) fun fields _ h => .pure ?_
  exact ⟨fields, rfl, h.trans (Model.namesAt_order hl horder)⟩

/-- A configuration is written with the answers that are read. -/
theorem ends_configText (hsaid : d.Says v) (hmodel : d.model = m) (hm : m.Walkable)
    (horder : m.InOrder) (header : Option String) :
    Ends (configText header) d fun text _ => ∃ chunks,
      text = header.getD d.settings.configHeader ++
        Chunk.joined m v { mark := d.settings.configPrefix } chunks ∧
      (∀ k ∈ chunks, k.Placed m v) ∧ chunks.filterMap Chunk.symbol? = m.written v := by
  have hfollow : configText header d =
      follow (d.model.configText ⟨d.settings.configPrefix, _⟩) d := rfl
  obtain ⟨chunks, htext, hplaced, hsymbols⟩ := @Model.configText_chunks m v hm
    ⟨d.settings.configPrefix, header.getD d.settings.configHeader⟩
  unfold Ends
  rw [hfollow, hmodel]
  refine (hsaid.ends_follow _).mono fun text _ h => ⟨chunks, h.trans htext, hplaced, ?_⟩
  rw [hsymbols, Model.filterMap_writtenAt hm horder]

/-- So is a header. -/
theorem ends_headerText (hsaid : d.Says v) (hmodel : d.model = m) (htexts : m.Texts v)
    (header : Option String) : Ends (headerText header) d fun text _ =>
      text = header.getD d.settings.headerHeader ++ String.join
        (((m.written v).filter (!m.isOff v ·)).map
          (m.headerLine v { mark := d.settings.configPrefix })) := by
  have hfollow : headerText header d =
      follow (d.model.headerText ⟨d.settings.configPrefix, _⟩) d := rfl
  unfold Ends
  rw [hfollow, hmodel]
  exact (hsaid.ends_follow _).mono fun text _ h => h.trans (Model.headerText_result htexts)

end Configuring

/-! ### All of them -/

/-- Whatever writes the values writes those of the same symbols: the ones with a line in
configurations, each of them once. -/
structure Configuration.Covers (c : Configuration) (m : Model) (v : Valuation) : Prop where
  once : (m.written v).Nodup
  lines : ∀ style, m.written v = m.defined.filter fun s => (m.configLine style s).result v ≠ ""
  config : ∀ header, Ends (Configuring.configText header) c fun text _ => ∃ chunks,
    text = header.getD c.settings.configHeader ++
      Chunk.joined m v { mark := c.settings.configPrefix } chunks ∧
    (∀ k ∈ chunks, k.Placed m v) ∧ chunks.filterMap Chunk.symbol? = m.written v
  header : ∀ header, Ends (Configuring.headerText header) c fun text _ =>
    text = header.getD c.settings.headerHeader ++ String.join
      (((m.written v).filter (!m.isOff v ·)).map (m.headerLine v { mark := c.settings.configPrefix }))
  values : Yields Configuring.jsonValues c fun json _ => ∃ fields, json = .obj fields ∧
    fields.map Prod.fst = (m.written v).map fun s => (m.symbol s).name

/-- Whatever was done before, where reading comes to an end all writers cover the same symbols. -/
theorem writers_agree {host : Host} {options : LoadOptions} {c : Configuration} {w : Workspace}
    (hload : Load.load host options = .ok c w) (acts : List Act)
    (hanswering : (c.after acts).Answering) :
    ∃ v, (c.after acts).Says v ∧ (c.after acts).Covers w.model v := by
  have hl := Load.listed_of_load hload
  have hbacks := Load.backsDirect_after hload acts
  obtain ⟨v, hsaid, hv⟩ := hbacks.exists_saying hanswering
  have htexts : w.model.Texts v := Model.texts_of_rule fun i => hv _ (w.model.direct_text i)
  obtain ⟨m, ⟨blocks, table, hread, hsettle, -⟩, -⟩ := Load.load_ok hload
  have hw := Load.walkable_of_load hload
  have horder : w.model.InOrder := hsettle ▸ hread.inOrder
  have hmodel := hbacks.model
  refine ⟨v, hsaid, (Model.nodup_firstOccurrences _).filter _, fun style => ?_,
    Configuring.ends_configText hsaid hmodel hw horder,
    Configuring.ends_headerText hsaid hmodel htexts,
    Configuring.yields_jsonValues hsaid hmodel hl hw.linked horder⟩
  refine List.filter_congr fun s hs => ?_
  have hiff : s ∈ w.model.written v ↔ (w.model.configLine style s).result v ≠ "" :=
    Model.mem_written_iff hs
  rw [Model.written, List.mem_filter, and_iff_right hs] at hiff
  exact Bool.eq_iff_iff.mpr (hiff.trans decide_eq_true_iff.symm)

/-- A symbol that is defined in a menu and again after other symbols, and one that is never
written. -/
def scattered : Host where
  files.entries := [(["work", "Kconfig"], .file (.text
    "menu \"m\"\nconfig A\n\tbool \"a\"\n\tdefault y\nendmenu\nconfig N\n\tint \"n\"\n\tdefault 5\nconfig B\n\tbool \"b\"\nconfig A\n\tdefault y if B\nconfig H\n\tbool\n"))]

theorem scattered_writersAgree : ∃ c w v, Load.load scattered {} = .ok c w ∧
    w.model.definitions.toList = [2, 3, 5, 2, 6] ∧
    let later := c.after [.setSymbol 3 (.text "7")]
    later.Answering ∧ later.Says v ∧ later.Covers w.model v := by
  have hchecked : passes (fun _ w => decide (w.model.choices.size = 0 ∧
      w.model.definitions.toList = [2, 3, 5, 2, 6])) (Load.load scattered {}) = true := by
    decide +kernel
  obtain ⟨c, w, hload, hchecked⟩ := ok_of_passes hchecked
  obtain ⟨hno, hdefinitions⟩ := of_decide_eq_true hchecked
  have hanswering := Load.answering_of_no_choices hload hno [.setSymbol 3 (.text "7")]
  obtain ⟨v, hsaid, hcovers⟩ := writers_agree hload _ hanswering
  exact ⟨c, w, v, hload, hdefinitions, hanswering, hsaid, hcovers⟩

end Kconfig
