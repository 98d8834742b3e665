import Mathlib.Data.List.Induction
import Kconfig.Proofs.Text.Numeral
/-!
Numbers as C reads them.

A constant in C is decimal, octal when it starts with `0`, or hexadecimal when it starts with `0x`,
and has nothing between its digits; a minus sign may stand before it. The text of a number is laxer:
it may have blanks of any script around it, a plus sign, digits of any script, underscores between
them, and zeros before them. Both read the same number when the text is spelled as a constant.
-/
namespace Kconfig
namespace Text
variable {base n k : Nat} {i : Int} {s t before core after digits : List Char} {c : Char}
  {p q : Char → Bool}

/-! ### Constants -/

/-- The number that digits make, with nothing between them. -/
def digits? (base : Nat) (s : List Char) : Option Nat := if '_' ∈ s then none else readNat base s

/-- The number that a constant denotes. Suffixes and binary constants are left out: what has them is
no number of its base, or starts with `0x` in the header. -/
def cConstant? : List Char → Option Nat
  | '0' :: 'x' :: s | '0' :: 'X' :: s => digits? 16 s
  | '0' :: s => digits? 8 ('0' :: s)
  | s => digits? 10 s

/-- The number that a constant denotes, if it may be negated. -/
def cNumber? : List Char → Option Int
  | '-' :: s => (cConstant? s).map fun n : Nat => -(n : Int)
  | s => (cConstant? s).map Int.ofNat

/-- What may stand before a constant in the line that defines a name. -/
def cBlank (c : Char) : Bool := c == ' ' || c == '\t' || c == '\x0b' || c == '\x0c'

/-- What may stand after it: a line feed ends the definition. -/
def cSpace (c : Char) : Bool := cBlank c || c == '\n'

/-- The number that C reads where a name is defined as the text. -/
def cValue? (s : List Char) : Option Int := cNumber? (dropRightWhile cSpace (s.dropWhile cBlank))

example : cValue? "010".toList = some 8 := by decide
example : cValue? "0x-0x2".toList = none := by decide

/-! ### Spelling -/

/-- Digits of a base, with nothing between them. -/
def AreDigits (base : Nat) (s : List Char) : Prop :=
  s ≠ [] ∧ ∀ c ∈ s, (digitIn base c).isSome = true

/-- Digits that mean the same when they are taken for octal because they start with `0`: only the
last one counts, and is octal. -/
def OctalSafe (digits : List Char) : Prop :=
  digits.head? = some '0' → (∀ c ∈ digits.dropLast, c = '0') ∧
    ∀ c ∈ digits.getLast?, (digitIn 8 c).isSome = true

/-- A decimal number is spelled as in C: no plus sign, nothing between the digits, and no zeros
before them that would make another number of it. -/
def SpelledDecimal (t : List Char) : Prop :=
  ∃ before sign digits after, t = before ++ (sign ++ digits) ++ after ∧
    (∀ c ∈ before, cBlank c = true) ∧ (∀ c ∈ after, cSpace c = true) ∧
    (sign = [] ∨ sign = ['-']) ∧ AreDigits 10 digits ∧ OctalSafe digits

/-- A hexadecimal number is spelled so that a constant comes of it when `0x` is put before it, unless
it has that already: no sign, nothing before or between the digits. -/
def SpelledHex (t : List Char) : Prop :=
  ∃ mark digits after, t = mark ++ digits ++ after ∧ (∀ c ∈ after, cSpace c = true) ∧
    (mark = [] ∨ mark = ['0', 'x'] ∨ mark = ['0', 'X']) ∧ AreDigits 16 digits

/-! ### Digits -/

theorem digitIn_mono {b : Nat} (hle : base ≤ b) {d : Nat} (h : digitIn base c = some d) :
    digitIn b c = some d := by
  rw [digitIn, Option.filter_eq_some_iff] at h ⊢
  exact ⟨h.1, decide_eq_true (Nat.lt_of_lt_of_le (of_decide_eq_true h.2) hle)⟩

theorem toNat_of_digitIn (h : (digitIn base c).isSome = true) : c.toNat < 127 := by
  refine Nat.lt_of_not_le fun hle => ?_
  have hbeyond : ∀ d : Char, d.toNat < 127 → d.val < c.val := fun d hd =>
    UInt32.lt_iff_toNat_lt.mpr (Nat.lt_of_lt_of_le hd hle)
  have hdigit : c.isDigit = false := by
    unfold Char.isDigit
    simpa using fun _ => hbeyond '9' (by decide)
  have hlower : c.isLower = false := by
    unfold Char.isLower
    simpa using fun _ => hbeyond 'z' (by decide)
  have hupper : c.isUpper = false := by
    unfold Char.isUpper
    simpa using fun _ => hbeyond 'Z' (by decide)
  simp [digitIn, hdigit, hlower, hupper] at h

/-- Digits stand for themselves, and are neither blanks, signs nor underscores. -/
theorem digitIn_plain (hbase : base ≤ 16) (h : (digitIn base c).isSome = true) :
    plainNumeralChar c = c ∧ asciiBlank c = false ∧ cSpace c = false ∧
      c ∉ ['-', '+', '_', 'x', 'X'] := by
  have hascii : ∀ n < 127, (digitIn 16 (Char.ofNat n)).isSome = true →
      asciiBlank (Char.ofNat n) = false ∧ cSpace (Char.ofNat n) = false ∧
        Char.ofNat n ∉ ['-', '+', '_', 'x', 'X'] := by decide
  have hlt := toNat_of_digitIn h
  obtain ⟨d, hd⟩ := Option.isSome_iff_exists.mp h
  have hall := hascii c.toNat hlt
  rw [Char.ofNat_toNat] at hall
  exact ⟨if_pos hlt, hall (Option.isSome_iff_exists.mpr ⟨d, digitIn_mono hbase hd⟩)⟩

theorem AreDigits.plain (hbase : base ≤ 16) (h : AreDigits base s) (hc : c ∈ s) :
    plainNumeralChar c = c ∧ asciiBlank c = false ∧ cSpace c = false ∧
      c ∉ ['-', '+', '_', 'x', 'X'] :=
  digitIn_plain hbase (h.2 c hc)

theorem readNat_digits (h : '_' ∉ s) : digits? base s = readNat base s := if_neg h

/-- One more digit. -/
theorem digits?_concat (hne : s ≠ []) : digits? base (s ++ [c]) =
    (digits? base s).bind fun k => (digitIn base c).bind fun d => some (k * base + d) := by
  by_cases hs : '_' ∈ s
  · simp [digits?, hs]
  · by_cases hc : c = '_'
    · subst hc
      have hnone : digitIn base '_' = none := rfl
      simp [digits?, hnone]
    · rw [digits?, if_neg (by simp [hs, Ne.symm hc]), digits?, if_neg hs]
      exact readNat_concat hne hs hc

theorem digits?_singleton : digits? base [c] = digitIn base c := by
  by_cases hc : c = '_'
  · subst hc
    rfl
  · rw [digits?, if_neg (by simp [Ne.symm hc]), readNat]
    cases digitIn base c <;> rfl

/-- A text makes a number exactly if it consists of digits. -/
theorem isSome_digits? : (digits? base s).isSome = true ↔ AreDigits base s := by
  induction s using List.reverseRecOn with
  | nil => exact iff_of_false Bool.false_ne_true fun h => h.1 rfl
  | append_singleton s c ih =>
    rcases List.eq_nil_or_concat s with rfl | ⟨t, d, rfl⟩
    · rw [List.nil_append, digits?_singleton]
      simp [AreDigits]
    · rw [digits?_concat (by simp)]
      have hne : t.concat d ≠ [] := by simp
      have hboth : AreDigits base (t.concat d ++ [c]) ↔
          AreDigits base (t.concat d) ∧ (digitIn base c).isSome = true := by
        simp only [AreDigits, hne, ne_eq, not_false_eq_true, true_and, List.append_eq_nil_iff,
          false_and, List.mem_append, List.mem_singleton]
        exact ⟨fun h => ⟨fun e he => h e (.inl he), h c (.inr rfl)⟩,
          fun h e he => he.elim (h.1 e) fun heq => heq ▸ h.2⟩
      rw [hboth, ← ih]
      cases digits? base (t.concat d) <;> cases digitIn base c <;> simp

/-! ### Octal digits -/

theorem digits?_concat_eq_some (hne : s ≠ []) : digits? base (s ++ [c]) = some k ↔
    ∃ j d, digits? base s = some j ∧ digitIn base c = some d ∧ j * base + d = k := by
  rw [digits?_concat hne]
  simp [Option.bind_eq_some_iff]

/-- In a smaller base digits make no larger number. -/
theorem digits?_le {b : Nat} (hle : base ≤ b) (s : List Char) : ∀ {j k : Nat},
    digits? base s = some j → digits? b s = some k → j ≤ k := by
  induction s using List.reverseRecOn with
  | nil => exact fun h => nomatch h
  | append_singleton s c ih =>
    intro j k hj hk
    by_cases hne : s = []
    · subst hne
      rw [List.nil_append, digits?_singleton] at hj hk
      rw [digitIn_mono hle hj] at hk
      exact Nat.le_of_eq (Option.some.inj hk)
    · obtain ⟨j', d, hj', hd, rfl⟩ := (digits?_concat_eq_some hne).mp hj
      obtain ⟨k', e, hk', he, rfl⟩ := (digits?_concat_eq_some hne).mp hk
      rw [digitIn_mono hle hd] at he
      have hfirst := Nat.mul_le_mul (ih hj' hk') hle
      have hlast := Option.some.inj he
      omega

theorem digitIn_eq_zero (hpos : 0 < base) (hbase : base ≤ 16) :
    digitIn base c = some 0 ↔ c = '0' := by
  refine ⟨fun h => ?_, ?_⟩
  · have hascii : ∀ n < 127, digitIn 16 (Char.ofNat n) = some 0 → Char.ofNat n = '0' := by decide
    have hzero := hascii c.toNat (toNat_of_digitIn (Option.isSome_of_eq_some h))
    rw [Char.ofNat_toNat] at hzero
    exact hzero (digitIn_mono hbase h)
  · rintro rfl
    show Option.filter (· < base) (some 0) = some 0
    simp [Option.filter_some, hpos]

/-- Only zeros make zero. -/
theorem digits?_eq_zero (hpos : 0 < base) (hbase : base ≤ 16) :
    digits? base s = some 0 ↔ s ≠ [] ∧ ∀ c ∈ s, c = '0' := by
  induction s using List.reverseRecOn with
  | nil => exact iff_of_false (fun h => nomatch h) fun h => h.1 rfl
  | append_singleton s c ih =>
    by_cases hne : s = []
    · subst hne
      rw [List.nil_append, digits?_singleton, digitIn_eq_zero hpos hbase]
      simp
    · rw [digits?_concat_eq_some hne]
      have hsum : ∀ j d : Nat, j * base + d = 0 ↔ j = 0 ∧ d = 0 := fun j d => by
        rw [Nat.add_eq_zero_iff, Nat.mul_eq_zero, or_iff_left (Nat.ne_of_gt hpos)]
      have hboth : (∃ j d, digits? base s = some j ∧ digitIn base c = some d ∧ j * base + d = 0) ↔
          digits? base s = some 0 ∧ digitIn base c = some 0 := by
        constructor
        · rintro ⟨j, d, hj, hd, h⟩
          obtain ⟨rfl, rfl⟩ := (hsum j d).mp h
          exact ⟨hj, hd⟩
        · exact fun ⟨hj, hd⟩ => ⟨0, 0, hj, hd, (hsum 0 0).mpr ⟨rfl, rfl⟩⟩
      rw [hboth, ih, digitIn_eq_zero hpos hbase]
      simp only [hne, ne_eq, not_false_eq_true, true_and, List.append_eq_nil_iff, false_and,
        List.mem_append, List.mem_singleton]
      exact ⟨fun h d hd => hd.elim (h.1 d) fun heq => heq.trans h.2,
        fun h => ⟨fun d hd => h d (.inl hd), h c (.inr rfl)⟩⟩

/-- Decimal digits mean the same as octal ones if only the last one counts, and is octal. -/
theorem octal_eq_decimal (h : digits? 10 s = some k) : digits? 8 s = some k ↔
    (∀ c ∈ s.dropLast, c = '0') ∧ ∀ c ∈ s.getLast?, (digitIn 8 c).isSome = true := by
  rcases List.eq_nil_or_concat s with rfl | ⟨s, c, rfl⟩
  · exact nomatch h
  · rw [List.concat_eq_append] at h ⊢
    simp only [List.dropLast_concat, List.getLast?_concat, Option.mem_some_iff, forall_eq']
    by_cases hne : s = []
    · subst hne
      rw [List.nil_append, digits?_singleton] at h ⊢
      refine ⟨fun h' => ⟨fun _ hd => absurd hd List.not_mem_nil, by simp [h']⟩, fun h' => ?_⟩
      obtain ⟨d, hd⟩ := Option.isSome_iff_exists.mp h'.2
      rw [hd, ← h, digitIn_mono (by decide) hd]
    · obtain ⟨j, d, hj, hd, hk⟩ := (digits?_concat_eq_some hne).mp h
      rw [digits?_concat_eq_some hne]
      constructor
      · rintro ⟨j', d', hj', hd', hk'⟩
        rw [digitIn_mono (by decide) hd'] at hd
        have hle := digits?_le (by decide) s hj' hj
        have hlast := Option.some.inj hd
        obtain rfl : j = 0 := by omega
        exact ⟨((digits?_eq_zero (by decide) (by decide)).mp hj).2, by simp [hd']⟩
      · rintro ⟨hzeros, hoctal⟩
        obtain ⟨d', hd'⟩ := Option.isSome_iff_exists.mp hoctal
        rw [digitIn_mono (by decide) hd'] at hd
        have hdecimal : digits? 10 s = some 0 :=
          (digits?_eq_zero (by decide) (by decide)).mpr ⟨hne, hzeros⟩
        rw [hj] at hdecimal
        refine ⟨0, d', (digits?_eq_zero (by decide) (by decide)).mpr ⟨hne, hzeros⟩, hd', ?_⟩
        have hlast := Option.some.inj hd
        have hzero := Option.some.inj hdecimal
        omega

/-! ### Constants -/

/-- A decimal number is a constant for the same number unless it is taken for octal. -/
theorem cConstant?_decimal (h : digits? 10 s = some k) :
    cConstant? s = some k ↔ OctalSafe s := by
  have hdigits := isSome_digits?.mp (Option.isSome_of_eq_some h)
  cases s with
  | nil => exact nomatch h
  | cons c s =>
    by_cases hc : c = '0'
    · subst hc
      have hoctal : cConstant? ('0' :: s) = digits? 8 ('0' :: s) := by
        cases s with
        | nil => rfl
        | cons d s =>
          have hd := (hdigits.plain (by decide) (c := d) (by simp)).2.2.2
          simp only [List.mem_cons, not_or] at hd
          rw [cConstant?]
          · simp [hd]
          · simp [hd]
      rw [hoctal, octal_eq_decimal h]
      simp [OctalSafe]
    · have hdecimal : cConstant? (c :: s) = digits? 10 (c :: s) := by
        rw [cConstant?] <;> simp [hc]
      exact iff_of_true (hdecimal.trans h) fun hhead => absurd (Option.some.inj hhead) hc

/-- A constant has neither blanks, signs nor underscores. -/
theorem cConstant?_plain (h : cConstant? s = some k) : s ≠ [] ∧ ∀ c ∈ s,
    plainNumeralChar c = c ∧ asciiBlank c = false ∧ cSpace c = false ∧ c ∉ ['-', '+', '_'] := by
  have hof : ∀ {base : Nat} {s : List Char}, base ≤ 16 → digits? base s = some k → s ≠ [] ∧
      ∀ c ∈ s, plainNumeralChar c = c ∧ asciiBlank c = false ∧ cSpace c = false ∧
        c ∉ ['-', '+', '_'] := by
    intro base s hbase hs
    have hdigits := isSome_digits?.mp (Option.isSome_of_eq_some hs)
    refine ⟨hdigits.1, fun c hc => ?_⟩
    obtain ⟨hplain, hblank, hspace, hnot⟩ := hdigits.plain hbase hc
    refine ⟨hplain, hblank, hspace, fun hmem => hnot ?_⟩
    exact List.mem_append_left ['x', 'X'] hmem
  unfold cConstant? at h
  split at h
  · refine ⟨by simp, fun c hc => ?_⟩
    simp only [List.mem_cons] at hc
    rcases hc with rfl | rfl | hc
    · decide
    · decide
    · exact (hof (by decide) h).2 c hc
  · refine ⟨by simp, fun c hc => ?_⟩
    simp only [List.mem_cons] at hc
    rcases hc with rfl | rfl | hc
    · decide
    · decide
    · exact (hof (by decide) h).2 c hc
  · exact hof (by decide) h
  · exact hof (by decide) h

/-! ### Blanks around numbers -/

theorem dropRightWhile_core (hcore : ∀ c ∈ core, p c = false) (hafter : ∀ c ∈ after, p c = true) :
    dropRightWhile p (core ++ after) = core := by
  induction after using List.reverseRecOn with
  | nil =>
    rcases List.eq_nil_or_concat core with rfl | ⟨s, c, rfl⟩
    · rfl
    · rw [List.concat_eq_append] at hcore ⊢
      rw [List.append_nil]
      exact dropRightWhile_concat_self (hcore c (by simp)) s
  | append_singleton after c ih =>
    rw [← List.append_assoc, dropRightWhile_concat (hafter c (by simp))]
    exact ih fun d hd => hafter d (by simp [hd])

/-- Cutting blanks off both ends leaves what has none. -/
theorem strip_core (hbefore : ∀ c ∈ before, p c = true) (hne : core ≠ [])
    (hcore : ∀ c ∈ core, p c = false ∧ q c = false) (hafter : ∀ c ∈ after, q c = true) :
    dropRightWhile q ((before ++ core ++ after).dropWhile p) = core := by
  have hleft : (before ++ core ++ after).dropWhile p = core ++ after := by
    rw [List.append_assoc]
    refine (takeWhile_until hbefore fun d hd => ?_).2
    obtain ⟨c, s, rfl⟩ := List.exists_cons_of_ne_nil hne
    obtain rfl := Option.some.inj hd
    exact (hcore c (by simp)).1
  rw [hleft]
  exact dropRightWhile_core (fun c hc => (hcore c hc).2) hafter

/-- The white space of C is blank, and stands for itself. -/
theorem cSpace_blank (h : cSpace c = true) : plainNumeralChar c = c ∧ asciiBlank c = true := by
  simp only [cSpace, cBlank, Bool.or_eq_true, beq_iff_eq] at h
  rcases h with (((rfl | rfl) | rfl) | rfl) | rfl <;> decide

theorem cSpace_of_cBlank (h : cBlank c = true) : cSpace c = true := by rw [cSpace, h, Bool.true_or]

/-- The number of a text is that of what is left without the blanks. -/
theorem readInt_core (radix : Radix) (hbefore : ∀ c ∈ before, cSpace c = true) (hne : core ≠ [])
    (hcore : ∀ c ∈ core, plainNumeralChar c = c ∧ asciiBlank c = false)
    (hafter : ∀ c ∈ after, cSpace c = true) :
    readInt radix (before ++ core ++ after) = readSigned radix core := by
  have hmap : (before ++ core ++ after).map plainNumeralChar = before ++ core ++ after := by
    refine (List.map_congr_left fun c hc => ?_).trans (List.map_id' _)
    simp only [List.mem_append] at hc
    rcases hc with (hc | hc) | hc
    · exact (cSpace_blank (hbefore c hc)).1
    · exact (hcore c hc).1
    · exact (cSpace_blank (hafter c hc)).1
  rw [readInt, hmap, strip_core (fun c hc => (cSpace_blank (hbefore c hc)).2) hne
    (fun c hc => ⟨(hcore c hc).2, (hcore c hc).2⟩) fun c hc => (cSpace_blank (hafter c hc)).2]

/-- A minus sign does the same to both kinds of numbers. -/
theorem exists_sign {sign : List Char} (hsign : sign = [] ∨ sign = ['-'])
    (hs : ∀ c ∈ s.head?, c ∉ ['-', '+', '_']) : ∃ f : Nat → Int, Function.Injective f ∧
      cNumber? (sign ++ s) = (cConstant? s).map f ∧
      ∀ radix, readSigned radix (sign ++ s) = (readMagnitude radix s).map f := by
  rcases hsign with rfl | rfl
  · have hhead : ∀ d u, s = d :: u → d ≠ '-' ∧ d ≠ '+' := by
      rintro d u rfl
      have hd := hs d rfl
      simp only [List.mem_cons, not_or] at hd
      exact ⟨hd.1, hd.2.1⟩
    refine ⟨Int.ofNat, fun _ _ => Int.ofNat.inj, ?_, fun radix => ?_⟩
    · rw [List.nil_append, cNumber?]
      exact fun u hu => (hhead _ u hu).1 rfl
    · rw [List.nil_append, readSigned]
      · exact fun u hu => (hhead _ u hu).1 rfl
      · exact fun u hu => (hhead _ u hu).2 rfl
  · refine ⟨fun n : Nat => -(n : Int), fun _ _ h => Int.ofNat.inj (Int.neg_inj.mp h), rfl,
      fun radix => ?_⟩
    rw [List.singleton_append, readSigned]
    cases readMagnitude radix s <;> rfl

/-! ### Numbers -/

/-- What C reads is a constant, with or without a minus sign. -/
theorem exists_constant (h : cValue? t = some i) : ∃ before sign s after k,
    t = before ++ (sign ++ s) ++ after ∧ (∀ c ∈ before, cBlank c = true) ∧
    (∀ c ∈ after, cSpace c = true) ∧ (sign = [] ∨ sign = ['-']) ∧ cConstant? s = some k := by
  obtain ⟨after, hright, hafter⟩ := dropRightWhile_rest (p := cSpace) (t.dropWhile cBlank)
  have htext : t = t.takeWhile cBlank ++ dropRightWhile cSpace (t.dropWhile cBlank) ++ after := by
    rw [List.append_assoc, ← hright, List.takeWhile_append_dropWhile]
  have hbefore : ∀ c ∈ t.takeWhile cBlank, cBlank c = true := fun c hc =>
    List.all_eq_true.mp List.all_takeWhile c hc
  rw [cValue?] at h
  generalize dropRightWhile cSpace (t.dropWhile cBlank) = core at h htext
  unfold cNumber? at h
  split at h
  · next s =>
    obtain ⟨k, hk, -⟩ := Option.map_eq_some_iff.mp h
    exact ⟨_, ['-'], s, after, k, htext, hbefore, hafter, .inr rfl, hk⟩
  · obtain ⟨k, hk, -⟩ := Option.map_eq_some_iff.mp h
    exact ⟨_, [], core, after, k, htext, hbefore, hafter, .inl rfl, hk⟩

/-- C reads a decimal number as the same one exactly if it is spelled for it. -/
theorem cValue?_decimal (h : readInt .ten t = some i) : cValue? t = some i ↔ SpelledDecimal t := by
  -- once the parts of the text are known, both sides say what the digits have to be like
  have hparts : ∀ {before sign s after : List Char}, t = before ++ (sign ++ s) ++ after →
      (∀ c ∈ before, cBlank c = true) → (∀ c ∈ after, cSpace c = true) →
      (sign = [] ∨ sign = ['-']) → s ≠ [] →
      (∀ c ∈ s, plainNumeralChar c = c ∧ asciiBlank c = false ∧ cSpace c = false ∧
        c ∉ ['-', '+', '_']) →
      AreDigits 10 s ∧ (cValue? t = some i ↔ OctalSafe s) := by
    intro before sign s after htext hbefore hafter hsign hne hs
    have hcore : ∀ c ∈ sign ++ s, plainNumeralChar c = c ∧ asciiBlank c = false ∧
        cSpace c = false := by
      intro c hc
      rcases List.mem_append.mp hc with hc | hc
      · rcases hsign with rfl | rfl
        · exact absurd hc List.not_mem_nil
        · obtain rfl := List.mem_singleton.mp hc
          decide
      · exact ⟨(hs c hc).1, (hs c hc).2.1, (hs c hc).2.2.1⟩
    have hnonempty : sign ++ s ≠ [] := by simp [hne]
    obtain ⟨f, hinj, hnumber, hsigned⟩ := exists_sign hsign fun c hc =>
      (hs c (List.mem_of_mem_head? hc)).2.2.2
    have hread : readInt .ten t = (digits? 10 s).map f := by
      have hunder : '_' ∉ s := fun hmem => (hs '_' hmem).2.2.2 (by simp)
      rw [htext, readInt_core .ten (fun c hc => cSpace_of_cBlank (hbefore c hc)) hnonempty
        (fun c hc => ⟨(hcore c hc).1, (hcore c hc).2.1⟩) hafter, hsigned, readNat_digits hunder]
      rfl
    have hvalue : cValue? t = (cConstant? s).map f := by
      rw [htext, cValue?, strip_core hbefore hnonempty (fun c hc => ⟨?_, (hcore c hc).2.2⟩) hafter,
        hnumber]
      exact Bool.eq_false_iff.mpr fun hblank =>
        absurd (cSpace_of_cBlank hblank) (by rw [(hcore c hc).2.2]; decide)
    rw [hread, Option.map_eq_some_iff] at h
    obtain ⟨k, hk, rfl⟩ := h
    refine ⟨isSome_digits?.mp (Option.isSome_of_eq_some hk), ?_⟩
    rw [hvalue, ← cConstant?_decimal hk, Option.map_eq_some_iff]
    exact ⟨fun ⟨j, hj, hf⟩ => hinj hf ▸ hj, fun hk => ⟨k, hk, rfl⟩⟩
  constructor
  · intro hvalue
    obtain ⟨before, sign, s, after, k, htext, hbefore, hafter, hsign, hk⟩ := exists_constant hvalue
    obtain ⟨hne, hs⟩ := cConstant?_plain hk
    obtain ⟨hdigits, hiff⟩ := hparts htext hbefore hafter hsign hne hs
    exact ⟨before, sign, s, after, htext, hbefore, hafter, hsign, hdigits, hiff.mp hvalue⟩
  · rintro ⟨before, sign, s, after, htext, hbefore, hafter, hsign, hdigits, hsafe⟩
    refine (hparts htext hbefore hafter hsign hdigits.1 fun c hc => ?_).2.mpr hsafe
    obtain ⟨hplain, hblank, hspace, hnot⟩ := hdigits.plain (by decide) hc
    exact ⟨hplain, hblank, hspace, fun hmem => hnot (List.mem_append_left ['x', 'X'] hmem)⟩

/-- What C reads after `0x`. -/
theorem cValue?_marked {x : Char} (hx : x = 'x' ∨ x = 'X') (s : List Char) :
    cValue? ('0' :: x :: s) = (digits? 16 (dropRightWhile cSpace s)).map Int.ofNat := by
  have hleft : ('0' :: x :: s).dropWhile cBlank = ['0'] ++ x :: s := rfl
  have hspace : cSpace x = false := by rcases hx with rfl | rfl <;> rfl
  rw [cValue?, hleft, dropRightWhile_append hspace]
  rcases hx with rfl | rfl <;> rfl

/-- A hexadecimal number with its mark before it, if it has one. -/
theorem readInt_marked {mark : List Char} (hmark : mark = [] ∨ mark = ['0', 'x'] ∨ mark = ['0', 'X'])
    (hdigits : AreDigits 16 digits) (hafter : ∀ c ∈ after, cSpace c = true) :
    readInt .sixteen (mark ++ digits ++ after) = (digits? 16 digits).map Int.ofNat := by
  have hplain : ∀ c ∈ mark ++ digits, plainNumeralChar c = c ∧ asciiBlank c = false := by
    intro c hc
    rcases List.mem_append.mp hc with hc | hc
    · have hmarks : c = '0' ∨ c = 'x' ∨ c = 'X' := by
        rcases hmark with rfl | rfl | rfl <;> grind
      rcases hmarks with rfl | rfl | rfl <;> decide
    · exact ⟨(hdigits.plain (by decide) hc).1, (hdigits.plain (by decide) hc).2.1⟩
  have hnot : ∀ c ∈ digits, c ∉ ['-', '+', '_', 'x', 'X'] := fun c hc =>
    (hdigits.plain (by decide) hc).2.2.2
  have hunder : '_' ∉ digits := fun hmem => hnot '_' hmem (by simp)
  obtain ⟨d, s, rfl⟩ := List.exists_cons_of_ne_nil hdigits.1
  have hd := hnot d (by simp)
  simp only [List.mem_cons, not_or] at hd
  have hmagnitude : readMagnitude .sixteen (mark ++ d :: s) = digits? 16 (d :: s) := by
    rw [readNat_digits hunder]
    have hprefixed : readPrefixed 16 (d :: s) = readNat 16 (d :: s) := by
      rw [readPrefixed]
      exact fun u hu => hd.2.2.1 (List.cons.inj hu).1
    rcases hmark with rfl | rfl | rfl
    · rw [List.nil_append, readMagnitude]
      · rintro u heq
        obtain ⟨-, rfl⟩ := List.cons.inj heq
        exact hnot 'x' (by simp) (by simp)
      · rintro u heq
        obtain ⟨-, rfl⟩ := List.cons.inj heq
        exact hnot 'X' (by simp) (by simp)
    · exact hprefixed
    · exact hprefixed
  have hsigned : readSigned .sixteen (mark ++ d :: s) =
      (readMagnitude .sixteen (mark ++ d :: s)).map Int.ofNat := by
    rcases hmark with rfl | rfl | rfl
    · rw [List.nil_append, readSigned]
      · exact fun u hu => hd.1 (List.cons.inj hu).1
      · exact fun u hu => hd.2.1 (List.cons.inj hu).1
    · rfl
    · rfl
  have hwhole : readInt .sixteen ([] ++ (mark ++ d :: s) ++ after) = _ :=
    readInt_core .sixteen (fun _ h => absurd h List.not_mem_nil) (by simp) hplain hafter
  rw [List.nil_append] at hwhole
  rw [hwhole, hsigned, hmagnitude]

/-- A text with `0x` before it, unless it has that. -/
def marked : List Char → List Char
  | '0' :: 'x' :: s => '0' :: 'x' :: s
  | '0' :: 'X' :: s => '0' :: 'X' :: s
  | s => '0' :: 'x' :: s

/-- The mark that a text has, and what comes after it. -/
theorem exists_mark (t : List Char) : ∃ mark x s, t = mark ++ s ∧ marked t = '0' :: x :: s ∧
    (x = 'x' ∨ x = 'X') ∧
    (mark = ['0', x] ∨ mark = [] ∧ ∀ y u, t = '0' :: y :: u → y ≠ 'x' ∧ y ≠ 'X') := by
  unfold marked
  split
  · next s => exact ⟨['0', 'x'], 'x', s, rfl, rfl, .inl rfl, .inl rfl⟩
  · next s => exact ⟨['0', 'X'], 'X', s, rfl, rfl, .inr rfl, .inl rfl⟩
  · next s hx hX =>
    refine ⟨[], 'x', t, rfl, rfl, .inl rfl, .inr ⟨rfl, ?_⟩⟩
    rintro y u rfl
    exact ⟨fun hy => hx u (hy ▸ rfl), fun hy => hX u (hy ▸ rfl)⟩

/-- C reads a marked hexadecimal number as the same one exactly if it is spelled for it. -/
theorem cValue?_hex (h : readInt .sixteen t = some i) :
    cValue? (marked t) = some i ↔ SpelledHex t := by
  obtain ⟨mark, x, s, htext, hmarked, hx, hmark⟩ := exists_mark t
  have hmark' : mark = [] ∨ mark = ['0', 'x'] ∨ mark = ['0', 'X'] := by
    rcases hmark with rfl | ⟨rfl, -⟩
    · rcases hx with rfl | rfl
      · exact .inr (.inl rfl)
      · exact .inr (.inr rfl)
    · exact .inl rfl
  rw [hmarked, cValue?_marked hx]
  constructor
  · intro hvalue
    obtain ⟨k, hk, -⟩ := Option.map_eq_some_iff.mp hvalue
    obtain ⟨after, hs, hafter⟩ := dropRightWhile_rest (p := cSpace) s
    refine ⟨mark, _, after, ?_, hafter, hmark', isSome_digits?.mp (Option.isSome_of_eq_some hk)⟩
    rw [List.append_assoc, ← hs]
    exact htext
  · rintro ⟨mark₂, digits, after, htext₂, hafter, hmark₂, hdigits⟩
    -- a text is split in one way only, for no digit is an `x`
    have hsame : s = digits ++ after := by
      rw [List.append_assoc] at htext₂
      rcases hmark with rfl | ⟨rfl, hunmarked⟩
      · rcases hmark₂ with rfl | rfl | rfl
        · obtain ⟨d, digits, rfl⟩ := List.exists_cons_of_ne_nil hdigits.1
          have hmem : x ∈ digits ++ after := by
            have htail : x :: s = digits ++ after := (List.cons.inj (htext.symm.trans htext₂)).2
            exact htail ▸ List.mem_cons_self
          rcases List.mem_append.mp hmem with hmem | hmem
          · refine absurd ?_ (hdigits.plain (by decide) (List.mem_cons_of_mem d hmem)).2.2.2
            rcases hx with rfl | rfl <;> simp
          · have hspace := hafter x hmem
            rcases hx with rfl | rfl <;> exact absurd hspace (by decide)
        · exact (List.cons.inj (List.cons.inj (htext.symm.trans htext₂)).2).2
        · exact (List.cons.inj (List.cons.inj (htext.symm.trans htext₂)).2).2
      · rw [List.nil_append] at htext
        rcases hmark₂ with rfl | rfl | rfl
        · exact htext.symm.trans htext₂
        · exact absurd rfl (hunmarked 'x' _ htext₂).1
        · exact absurd rfl (hunmarked 'X' _ htext₂).2
    rw [hsame, dropRightWhile_core (fun c hc => (hdigits.plain (by decide) hc).2.2.1) hafter,
      ← readInt_marked hmark₂ hdigits hafter, ← htext₂]
    exact h

/-! ### Numbers that are written -/

theorem areDigits_toDigits (hbase : 1 < base) (hle : base ≤ 16) (n : Nat) :
    AreDigits base (Nat.toDigits base n) := by
  refine isSome_digits?.mp ?_
  refine Option.isSome_of_eq_some (readNat_digits ?_ ▸ readNat_toDigits hbase hle n)
  exact fun hmem => (toDigits_plain hbase hle hmem).2.2 (by simp)

/-- Only zero starts with a zero. -/
theorem toDigits_head : (Nat.toDigits 10 n).head? = some '0' → n = 0 := by
  induction n using Nat.strongRecOn with
  | ind n ih =>
    intro hhead
    rw [Nat.toDigits_eq_if (by decide)] at hhead
    split at hhead
    · next hn =>
      have hzero : ∀ n < 10, (some (Nat.digitChar n)) = some '0' → n = 0 := by decide
      exact hzero n hn hhead
    · next hn =>
      have hne : Nat.toDigits 10 (n / 10) ≠ [] := Nat.toDigits_ne_nil
      obtain ⟨c, s, hs⟩ := List.exists_cons_of_ne_nil hne
      rw [hs] at hhead
      have hfirst := ih (n / 10) (by omega) (hs ▸ hhead)
      omega

theorem octalSafe_toDigits (n : Nat) : OctalSafe (Nat.toDigits 10 n) := by
  intro hhead
  obtain rfl := toDigits_head hhead
  have hzero : Nat.toDigits 10 0 = ['0'] := by decide
  rw [hzero]
  refine ⟨fun c hc => absurd hc List.not_mem_nil, fun c hc => ?_⟩
  obtain rfl : '0' = c := Option.some.inj hc
  decide

theorem spelledDecimal_decimal (n : Int) : SpelledDecimal (decimal n).toList := by
  refine ⟨[], if n < 0 then ['-'] else [], Nat.toDigits 10 n.natAbs, [], ?_,
    fun _ h => absurd h List.not_mem_nil, fun _ h => absurd h List.not_mem_nil, ?_,
    areDigits_toDigits (by decide) (by decide) _, octalSafe_toDigits _⟩
  · by_cases hn : n < 0 <;> simp [decimal, signedDigits, hn]
  · by_cases hn : n < 0 <;> simp [hn]

theorem spelledHex_hex (n : Int) : SpelledHex (hex n).toList ↔ 0 ≤ n := by
  constructor
  · rintro ⟨mark, digits, after, htext, -, hmark, hdigits⟩
    refine Int.not_lt.mp fun hn => ?_
    have hminus : (hex n).toList = '-' :: '0' :: 'x' :: Nat.toDigits 16 n.natAbs := by
      simp [hex, signedDigits, hn]
    rw [hminus, List.append_assoc] at htext
    rcases hmark with rfl | rfl | rfl
    · obtain ⟨d, digits, rfl⟩ := List.exists_cons_of_ne_nil hdigits.1
      obtain rfl : '-' = d := (List.cons.inj htext).1
      exact absurd (hdigits.2 '-' List.mem_cons_self) (by decide)
    · exact absurd (List.cons.inj htext).1 (by decide)
    · exact absurd (List.cons.inj htext).1 (by decide)
  · intro hn
    refine ⟨['0', 'x'], Nat.toDigits 16 n.natAbs, [], ?_, fun _ h => absurd h List.not_mem_nil,
      .inr (.inl rfl), areDigits_toDigits (by decide) (by decide) _⟩
    simp [hex, signedDigits, Int.not_lt.mpr hn]

end Text
end Kconfig
