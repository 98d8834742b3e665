import Kconfig.Model.Basic
import Kconfig.Proofs.Lists
import Kconfig.Proofs.Text.Lines
import Kconfig.Text.Numeral
/-!
Numbers that are written are read back.

The digits that write a number in a base are digits of that base without underscores between them,
so reading puts the number together again from the left. A sign and the prefix `0x` are what reading
expects before them.
-/
namespace Kconfig
namespace Text
variable {base n k : Nat} {s : List Char} {c : Char}

/-! ### Digits -/

theorem digitIn_digitChar {d : Nat} (hbase : base ≤ 16) (hd : d < base) :
    digitIn base (Nat.digitChar d) = some d := by
  have hvalue : ∀ d < 16, digitIn 16 (Nat.digitChar d) = some d := by decide
  have hdigit := hvalue d (by omega)
  rw [digitIn, Option.filter_eq_some_iff] at hdigit ⊢
  exact ⟨hdigit.1, decide_eq_true hd⟩

/-- Digits are neither blanks, signs nor underscores, and stand for themselves. -/
theorem digitChar_plain {d : Nat} (hd : d < 16) : plainNumeralChar (Nat.digitChar d) = Nat.digitChar d ∧
    asciiBlank (Nat.digitChar d) = false ∧ Nat.digitChar d ∉ ['-', '+', '_'] := by
  have hplain : ∀ d < 16, plainNumeralChar (Nat.digitChar d) = Nat.digitChar d ∧
    asciiBlank (Nat.digitChar d) = false ∧ Nat.digitChar d ∉ ['-', '+', '_'] := by decide
  exact hplain d hd

theorem mem_toDigits (hbase : 1 < base) (h : c ∈ Nat.toDigits base n) :
    ∃ d < base, c = Nat.digitChar d := by
  induction n using Nat.strongRecOn with
  | ind n ih =>
    rw [Nat.toDigits_eq_if hbase] at h
    split at h
    · next hn => exact ⟨n, hn, List.mem_singleton.mp h⟩
    · next hn =>
      rcases List.mem_append.mp h with h | h
      · exact ih (n / base) (Nat.div_lt_self (by omega) hbase) h
      · exact ⟨n % base, Nat.mod_lt _ (by omega), List.mem_singleton.mp h⟩

theorem toDigits_plain (hbase : 1 < base) (hle : base ≤ 16) (h : c ∈ Nat.toDigits base n) :
    plainNumeralChar c = c ∧ asciiBlank c = false ∧ c ∉ ['-', '+', '_'] := by
  obtain ⟨d, hd, rfl⟩ := mem_toDigits hbase h
  exact digitChar_plain (by omega)

/-- One more digit after digits without underscores. -/
theorem readDigits_concat (hs : '_' ∉ s) (hc : c ≠ '_') : readDigits base n (s ++ [c]) =
    (readDigits base n s).bind fun k => (digitIn base c).bind fun d => some (k * base + d) := by
  induction s generalizing n with
  | nil => simp [readDigits]
  | cons e s ih =>
    obtain ⟨he, hs⟩ := not_or.mp (mt List.mem_cons.mpr hs)
    have hstep : ∀ t, readDigits base n (e :: t) =
        (digitIn base e).bind fun d => readDigits base (n * base + d) t := fun t => by
      rw [readDigits]
      exact fun _ _ h => absurd h.symm he
    rw [List.cons_append, hstep, hstep]
    cases digitIn base e with
    | none => rfl
    | some d => exact ih hs

theorem readNat_concat (hne : s ≠ []) (hs : '_' ∉ s) (hc : c ≠ '_') : readNat base (s ++ [c]) =
    (readNat base s).bind fun k => (digitIn base c).bind fun d => some (k * base + d) := by
  obtain ⟨e, s, rfl⟩ := List.exists_cons_of_ne_nil hne
  rw [List.cons_append, readNat, readNat]
  cases digitIn base e with
  | none => rfl
  | some d => exact readDigits_concat (mt (List.mem_cons_of_mem e) hs) hc

/-- The digits of a number are read as that number. -/
theorem readNat_toDigits (hbase : 1 < base) (hle : base ≤ 16) (n : Nat) :
    readNat base (Nat.toDigits base n) = some n := by
  induction n using Nat.strongRecOn with
  | ind n ih =>
    rw [Nat.toDigits_eq_if hbase]
    split
    · next hn => rw [readNat, digitIn_digitChar hle hn]; rfl
    · next hn =>
      have hlast : n % base < base := Nat.mod_lt _ (by omega)
      have hplain : ∀ {d}, Nat.digitChar d ∉ ['-', '+', '_'] → Nat.digitChar d ≠ '_' := by
        rintro d hd heq
        exact hd (by simp [heq])
      rw [readNat_concat Nat.toDigits_ne_nil, ih _ (Nat.div_lt_self (by omega) hbase)]
      · dsimp only [Option.bind_some]
        rw [digitIn_digitChar hle hlast, Option.bind_some, Nat.div_add_mod']
      · exact fun hmem => (toDigits_plain hbase hle hmem).2.2 (by simp)
      · exact hplain (digitChar_plain (by omega)).2.2

/-! ### Numerals -/

/-- Nothing is cut off a text without blanks. -/
theorem readInt_eq (radix : Radix) (hs : ∀ c ∈ s, plainNumeralChar c = c ∧ asciiBlank c = false) :
    readInt radix s = readSigned radix s := by
  have hmap : s.map plainNumeralChar = s :=
    (List.map_congr_left fun c hc => (hs c hc).1).trans (List.map_id' s)
  have hleft : s.dropWhile asciiBlank = s := by
    cases s with
    | nil => rfl
    | cons c s => exact List.dropWhile_cons_of_neg (by simp [(hs c (by simp)).2])
  have hright : dropRightWhile asciiBlank s = s := by
    rcases List.eq_nil_or_concat s with rfl | ⟨t, c, rfl⟩
    · rfl
    · rw [List.concat_eq_append] at hs ⊢
      exact dropRightWhile_concat_self (hs c (by simp)).2 t
  rw [readInt, hmap, hleft, hright]

/-- The number that signed digits write, if the mark before them is read with them. -/
theorem readInt_signedDigits {radix : Radix} {mark : String} (hbase : 1 < base) (hle : base ≤ 16)
    (hmark : ∀ c ∈ mark.toList, plainNumeralChar c = c ∧ asciiBlank c = false ∧ c ∉ ['-', '+', '_'])
    (hread : ∀ k, readMagnitude radix (mark.toList ++ Nat.toDigits base k) = some k) (n : Int) :
    readInt radix (signedDigits base mark n).toList = some n := by
  have hdigits : ∀ c ∈ mark.toList ++ Nat.toDigits base n.natAbs,
      plainNumeralChar c = c ∧ asciiBlank c = false ∧ c ∉ ['-', '+', '_'] := by
    intro c hc
    rcases List.mem_append.mp hc with hc | hc
    · exact hmark c hc
    · exact toDigits_plain hbase hle hc
  by_cases hn : n < 0
  · have htext : (signedDigits base mark n).toList =
        '-' :: (mark.toList ++ Nat.toDigits base n.natAbs) := by
      simp [signedDigits, hn]
    rw [htext, readInt_eq, readSigned, hread]
    · have habs : -(n.natAbs : Int) = n := by omega
      exact congrArg some habs
    · intro c hc
      rcases List.mem_cons.mp hc with rfl | hc
      · decide
      · exact ⟨(hdigits c hc).1, (hdigits c hc).2.1⟩
  · have htext : (signedDigits base mark n).toList =
        mark.toList ++ Nat.toDigits base n.natAbs := by
      simp [signedDigits, hn]
    have hsigns : ∀ c t, mark.toList ++ Nat.toDigits base n.natAbs = c :: t → c ≠ '-' ∧ c ≠ '+' := by
      intro c t heq
      have hc := (hdigits c (by simp [heq])).2.2
      simp only [List.mem_cons, not_or] at hc
      exact ⟨hc.1, hc.2.1⟩
    rw [htext, readInt_eq _ fun c hc => ⟨(hdigits c hc).1, (hdigits c hc).2.1⟩, readSigned, hread]
    · have habs : (n.natAbs : Int) = n := by omega
      exact congrArg some habs
    · exact fun t heq => (hsigns _ t heq).1 rfl
    · exact fun t heq => (hsigns _ t heq).2 rfl

theorem readInt_decimal (n : Int) : readInt .ten (decimal n).toList = some n := by
  have hbase : 1 < 10 := by decide
  refine readInt_signedDigits hbase (by decide) (by simp) (fun k => ?_) n
  have hdigits : readNat 10 (Nat.toDigits 10 k) = some k :=
    readNat_toDigits (by decide) (by decide) k
  simpa [readMagnitude] using hdigits

theorem readInt_hex (n : Int) : readInt .sixteen (hex n).toList = some n := by
  have hbase : 1 < 16 := by decide
  refine readInt_signedDigits hbase (by decide)
    (Lists.forall_of_all (by decide)) (fun k => ?_) n
  have hdigits : readNat 16 (Nat.toDigits 16 k) = some k :=
    readNat_toDigits (by decide) (by decide) k
  show readPrefixed 16 (Nat.toDigits 16 k) = some k
  rw [readPrefixed]
  · exact hdigits
  · rintro t ht
    have hmem : '_' ∈ Nat.toDigits 16 k := by simp [ht]
    exact (toDigits_plain (by decide) (by decide) hmem).2.2 (by simp)

end Text

/-- What a type of numbers writes, it reads. -/
theorem ValueType.readInt_write {type : ValueType} (htype : type.isNumber = true) (n : Int) :
    Text.readInt type.radix (type.write n).toList = some n := by
  cases type with
  | int => exact Text.readInt_decimal n
  | hex => exact Text.readInt_hex n
  | _ => exact nomatch htype

end Kconfig
