import Mathlib.Data.List.Infix
import Mathlib.Data.List.TakeWhile
import CallSchema.Json.Printer
import CallSchema.Json.Reader

/-! # The text of numbers

A number is read from the front of a text and no further than the mark after it, so a number whose
text reads back as a document of its own reads back within every document. Every whole number of 64
bits reads back.
-/

namespace CallSchema.Json

/-- Texts that can follow a value: the end, or the mark that ends an item or a member. -/
def Delimited (rest : List Char) : Prop :=
  ∀ c ∈ rest.head?, c = ',' ∨ c = ']' ∨ c = '\x7d'

theorem delimited_nil : Delimited [] := by
  simp [Delimited]

theorem delimited_cons {c : Char} {rest : List Char} :
    Delimited (c :: rest) ↔ c = ',' ∨ c = ']' ∨ c = '\x7d' := by
  simp [Delimited]

theorem Delimited.isDigit_head {rest : List Char} (h : Delimited rest) :
    ∀ c ∈ rest.head?, c.isDigit = false := by
  intro c hc
  rcases h c hc with rfl | rfl | rfl <;> decide

theorem span_append {p : Char → Bool} {rest : List Char} (h : ∀ c ∈ rest.head?, p c = false)
    (cs : List Char) : (cs ++ rest).span p = ((cs.span p).1, (cs.span p).2 ++ rest) := by
  simp only [List.span_eq_takeWhile_dropWhile]
  induction cs with
  | nil =>
    cases rest with
    | nil => rfl
    | cons c rest => simp [h c rfl]
  | cons c cs ih =>
    obtain ⟨htake, hdrop⟩ := Prod.mk.inj ih
    cases hc : p c <;> simp [hc, htake, hdrop]

/-- A reader of the front of a text that does not look past a mark. -/
structure Stops {α : Type} (read? : List Char → Option (α × List Char)) : Prop where
  suffix {cs rest : List Char} {a : α} : read? cs = some (a, rest) → rest <:+ cs
  append {cs rest tail : List Char} {a : α} : read? cs = some (a, rest) → Delimited tail →
    read? (cs ++ tail) = some (a, rest ++ tail)

theorem Stops.bind {α β : Type} {first? : List Char → Option (α × List Char)}
    (hfirst : Stops first?) (next? : α → List Char → Option (β × List Char))
    (hnext : ∀ a, Stops (next? a)) : Stops fun cs => (first? cs).bind fun p => next? p.1 p.2 where
  suffix h := by
    obtain ⟨⟨a, middle⟩, ha, hb⟩ := Option.bind_eq_some_iff.mp h
    exact ((hnext a).suffix hb).trans (hfirst.suffix ha)
  append h ht := by
    obtain ⟨⟨a, middle⟩, ha, hb⟩ := Option.bind_eq_some_iff.mp h
    rw [hfirst.append ha ht]
    exact (hnext a).append hb ht

theorem stops_pure {α : Type} (a : α) : Stops fun cs => some (a, cs) where
  suffix h := by
    cases h
    exact List.suffix_rfl
  append h _ := by
    cases h
    rfl

/-- A part that only some characters announce, and a mark never does. -/
theorem stops_optional {α : Type} {read? : List Char → Option (α × List Char)} (absent : α)
    (hnil : read? [] = some (absent, []))
    (hmark : ∀ {c : Char} {rest : List Char}, c = ',' ∨ c = ']' ∨ c = '\x7d' →
      read? (c :: rest) = some (absent, c :: rest))
    (hcons : ∀ c, (∃ inside?, Stops inside? ∧ ∀ cs, read? (c :: cs) = inside? cs) ∨
      ∀ cs, read? (c :: cs) = some (absent, c :: cs)) : Stops read? where
  suffix {cs rest a} h := by
    cases cs with
    | nil =>
      cases hnil.symm.trans h
      exact List.suffix_rfl
    | cons c cs =>
      rcases hcons c with ⟨inside?, hinside, heq⟩ | hpass
      · exact (hinside.suffix ((heq cs).symm.trans h)).trans (List.suffix_cons c cs)
      · cases (hpass cs).symm.trans h
        exact List.suffix_rfl
  append {cs rest tail a} h ht := by
    cases cs with
    | nil =>
      -- the part is absent at the end, and the mark that now follows does not announce it
      cases hnil.symm.trans h
      cases tail with
      | nil => exact hnil
      | cons c tail => exact hmark (delimited_cons.mp ht)
    | cons c cs =>
      rw [List.cons_append]
      rcases hcons c with ⟨inside?, hinside, heq⟩ | hpass
      · rw [heq] at h ⊢
        exact hinside.append h ht
      · cases (hpass cs).symm.trans h
        exact hpass _

namespace Number

theorem digits?_eq_some_iff {cs ds rest : List Char} :
    digits? cs = some (ds, rest) ↔ cs.span Char.isDigit = (ds, rest) ∧ ds ≠ [] := by
  unfold digits?
  split <;> rename_i heq
  · simp only [heq, reduceCtorEq, Prod.mk.injEq, false_iff]
    rintro ⟨⟨rfl, -⟩, hne⟩
    exact hne rfl
  · rename_i ds' rest' hne
    simp only [heq, Option.some.injEq, Prod.mk.injEq, iff_self_and]
    rintro ⟨rfl, rfl⟩
    exact hne

theorem stops_digits? : Stops digits? where
  suffix h := by
    have hspan := (digits?_eq_some_iff.mp h).1
    rw [List.span_eq_takeWhile_dropWhile] at hspan
    rw [← (Prod.mk.inj hspan).2]
    exact List.dropWhile_suffix _
  append h ht := by
    obtain ⟨hspan, hne⟩ := digits?_eq_some_iff.mp h
    refine digits?_eq_some_iff.mpr ⟨?_, hne⟩
    rw [span_append ht.isDigit_head, hspan]

theorem whole?_eq_some_iff {cs ds rest : List Char} :
    whole? cs = some (ds, rest) ↔ digits? cs = some (ds, rest) ∧ ∀ d ds', ds ≠ '0' :: d :: ds' := by
  rw [whole?, Option.bind_eq_bind, Option.bind_eq_some_iff]
  constructor
  · rintro ⟨p, hp, h⟩
    dsimp only at h
    split at h
    · cases h
    · rename_i hne
      cases h
      exact ⟨hp, fun d ds' => hne d ds'⟩
  · rintro ⟨h, hne⟩
    refine ⟨(ds, rest), h, ?_⟩
    dsimp only
    split
    · exact absurd rfl (hne _ _)
    · rfl

theorem stops_whole? : Stops whole? where
  suffix h := stops_digits?.suffix (whole?_eq_some_iff.mp h).1
  append h ht := by
    obtain ⟨hdigits, hne⟩ := whole?_eq_some_iff.mp h
    exact whole?_eq_some_iff.mpr ⟨stops_digits?.append hdigits ht, hne⟩

theorem stops_fraction? : Stops fraction? := by
  refine stops_optional [] rfl (fun h => ?_) fun c => ?_
  · rcases h with rfl | rfl | rfl <;> rfl
  · by_cases hc : c = '.'
    · exact .inl ⟨_, stops_digits?, fun cs => by rw [hc]; rfl⟩
    · exact .inr fun cs => by simp [fraction?, hc]

theorem stops_sign : Stops fun cs => some (sign cs) := by
  refine stops_optional false rfl (fun h => ?_) fun c => ?_
  · rcases h with rfl | rfl | rfl <;> rfl
  · by_cases hc : c = '-'
    · exact .inl ⟨_, stops_pure true, fun cs => by rw [hc]; rfl⟩
    · by_cases hc' : c = '+'
      · exact .inl ⟨_, stops_pure false, fun cs => by rw [hc']; rfl⟩
      · exact .inr fun cs => by simp [sign, hc, hc']

theorem stops_exponentDigits? : Stops exponentDigits? :=
  stops_sign.bind _ fun negative => stops_digits?.bind _ fun ds =>
    stops_pure (some (if negative then -(natValue ds : Int) else natValue ds))

theorem stops_exponent? : Stops exponent? := by
  refine stops_optional none rfl (fun h => ?_) fun c => ?_
  · rcases h with rfl | rfl | rfl <;> rfl
  · by_cases hc : c = 'e' ∨ c = 'E'
    · refine .inl ⟨_, stops_exponentDigits?, fun cs => ?_⟩
      rcases hc with rfl | rfl <;> rfl
    · refine .inr fun cs => ?_
      simp [exponent?, not_or.mp hc]

/-- The number at the front of a text, after its sign. -/
def parts? (negative : Bool) (cs : List Char) : Option (Number × List Char) :=
  (whole? cs).bind fun w => (fraction? w.2).bind fun f => (exponent? f.2).bind fun e =>
    some (⟨negative, w.1, f.1, e.1⟩, e.2)

theorem scan?_cons (c : Char) (cs : List Char) :
    scan? (c :: cs) = if c = '-' then parts? true cs else parts? false (c :: cs) := by
  split
  · subst_vars
    rfl
  · rename_i hc
    simp [scan?, parts?, hc]

theorem stops_parts? (negative : Bool) : Stops (parts? negative) :=
  stops_whole?.bind _ fun _ => stops_fraction?.bind _ fun _ => stops_exponent?.bind _ fun _ =>
    stops_pure _

theorem stops_scan? : Stops scan? where
  suffix {cs rest n} h := by
    cases cs with
    | nil => cases h
    | cons c cs =>
      rw [scan?_cons] at h
      split at h
      · exact ((stops_parts? true).suffix h).trans (List.suffix_cons c cs)
      · exact (stops_parts? false).suffix h
  append {cs rest tail n} h ht := by
    cases cs with
    | nil => cases h
    | cons c cs =>
      rw [List.cons_append]
      rw [scan?_cons] at h ⊢
      by_cases hc : c = '-'
      · rw [if_pos hc] at h ⊢
        exact (stops_parts? true).append h ht
      · rw [if_neg hc] at h ⊢
        exact (stops_parts? false).append h ht

end Number

/-- A value without parts starts neither with a blank nor with a bracket. -/
theorem scalar?_start {cs : List Char} {p : Json × List Char} (h : scalar? cs = some p) :
    ∃ c rest, cs = c :: rest ∧ c ∉ [' ', '\n', '\t', '\r', '[', ']', '\x7b'] := by
  cases cs with
  | nil => cases h
  | cons c rest =>
    refine ⟨c, rest, rfl, fun hc => ?_⟩
    have hnone : scalar? (c :: rest) = none := by
      simp only [List.mem_cons, List.not_mem_nil, or_false] at hc
      rcases hc with rfl | rfl | rfl | rfl | rfl | rfl | rfl <;> rfl
    rw [hnone] at h
    cases h

theorem scalar?_of_scan? {cs rest : List Char} {n : Number}
    (h : Number.scan? cs = some (n, rest)) : scalar? cs = n.value?.map fun v => (v, rest) := by
  unfold scalar?
  split
  iterate 4
    simp [Number.scan?, Number.whole?, Number.digits?, List.span_eq_takeWhile_dropWhile] at h
  simp only [h, Option.bind_eq_bind, Option.bind_some]
  cases n.value? <;> rfl

theorem dropBlanks_cons {c : Char} (h : isBlank c = false) (cs : List Char) :
    dropBlanks (c :: cs) = c :: cs := by
  simp [dropBlanks, h]

theorem dropBlanks_of_forall {cs : List Char} (h : ∀ c ∈ cs, isBlank c = false) :
    dropBlanks cs = cs := by
  cases cs with
  | nil => rfl
  | cons c cs => exact dropBlanks_cons (h c List.mem_cons_self) cs

theorem isBlank_of_isDigit {c : Char} (h : c.isDigit = true) : isBlank c = false := by
  by_contra hb
  simp only [isBlank, Bool.not_eq_false, Bool.or_eq_true, decide_eq_true_eq] at hb
  rcases hb with ((rfl | rfl) | rfl) | rfl <;> revert h <;> decide

theorem isBlank_of_mem_toDigits {c : Char} {n : Nat} (h : c ∈ Nat.toDigits 10 n) :
    isBlank c = false :=
  isBlank_of_isDigit (Nat.isDigit_of_mem_toDigits (by decide) (by decide) h)

end CallSchema.Json

namespace CallSchema.Decimal.Style

open Json (isBlank isBlank_of_mem_toDigits)

theorem isBlank_positional {digits : List Char} {n : Int} (h : ∀ c ∈ digits, isBlank c = false) :
    ∀ c ∈ positional digits n, isBlank c = false := by
  have hzero : ∀ k, ∀ c ∈ List.replicate k '0', isBlank c = false := by
    intro k c hc
    rw [List.eq_of_mem_replicate hc]
    rfl
  unfold positional
  split
  · simp only [List.forall_mem_cons, List.forall_mem_append]
    exact ⟨rfl, rfl, hzero _, h⟩
  · split
    · simp only [List.forall_mem_cons, List.forall_mem_append]
      exact ⟨⟨h, hzero _⟩, rfl, rfl, by simp⟩
    · simp only [List.forall_mem_cons, List.forall_mem_append]
      exact ⟨fun c hc => h c (List.mem_of_mem_take hc), rfl,
        fun c hc => h c (List.mem_of_mem_drop hc)⟩

theorem isBlank_scientific {signed : Bool} {digits : List Char} {e : Int}
    (h : ∀ c ∈ digits, isBlank c = false) :
    ∀ c ∈ scientific signed digits e, isBlank c = false := by
  simp only [scientific, List.forall_mem_append, List.forall_mem_cons]
  refine ⟨?_, rfl, ?_, fun c hc => isBlank_of_mem_toDigits hc⟩
  · split
    · simp
    · exact h
    · simp only [List.forall_mem_cons] at h ⊢
      exact ⟨h.1, rfl, h.2⟩
  · split
    · simp [isBlank]
    · cases signed <;> simp [isBlank]

theorem isBlank_magnitude (style : Style) (m : Nat) :
    ∀ c ∈ style.magnitude m, isBlank c = false := by
  unfold magnitude
  split
  · simp [isBlank]
  · dsimp only
    split
    · exact isBlank_positional fun c hc => isBlank_of_mem_toDigits hc
    · exact isBlank_scientific fun c hc => isBlank_of_mem_toDigits hc

end CallSchema.Decimal.Style

namespace CallSchema.Json

def isNumber : Json → Bool
  | .int _ | .float _ => true
  | _ => false

theorem isBlank_intChars (i : Int) : ∀ c ∈ intChars i, isBlank c = false := by
  simp only [intChars, List.forall_mem_append]
  refine ⟨?_, fun c hc => isBlank_of_mem_toDigits hc⟩
  split <;> simp [isBlank]

theorem isBlank_floatChars (x : Binary64) : ∀ c ∈ floatChars x, isBlank c = false := by
  unfold floatChars
  split
  · rename_i hx
    simp only [Decimal.Style.write, hx, if_true, String.toList_ofList, List.forall_mem_append]
    refine ⟨?_, decimals.isBlank_magnitude _⟩
    split <;> simp [isBlank]
  · simp [isBlank]

theorem isBlank_chars {v : Json} (hv : v.isNumber = true) : ∀ c ∈ v.chars, isBlank c = false := by
  cases v with
  | int i => exact isBlank_intChars i
  | float x => exact isBlank_floatChars x
  | _ => cases hv

theorem scan?_of_scalar? {v : Json} {cs rest : List Char} (hv : v.isNumber = true)
    (h : scalar? cs = some (v, rest)) :
    ∃ n, Number.scan? cs = some (n, rest) ∧ n.value? = some v := by
  unfold scalar? at h
  split at h
  · cases h
    cases hv
  · cases h
    cases hv
  · cases h
    cases hv
  · obtain ⟨p, -, heq⟩ := Option.bind_eq_some_iff.mp h
    cases heq
    cases hv
  · obtain ⟨⟨n, r⟩, hn, heq⟩ := Option.bind_eq_some_iff.mp h
    obtain ⟨w, hw, heq⟩ := Option.bind_eq_some_iff.mp heq
    cases heq
    exact ⟨n, hn, hw⟩

/-- A number that reads back on its own reads back in front of every mark. -/
theorem scalar?_number {v : Json} {rest : List Char} (hv : v.isNumber = true)
    (h : parse? 0 v.compact = some v) (hrest : Delimited rest) :
    scalar? (v.chars ++ rest) = some (v, rest) := by
  have hblank := isBlank_chars hv
  simp only [parse?, compact, String.toList_ofList, value?, dropBlanks_of_forall hblank] at h
  match hs : scalar? v.chars with
  | none => simp [hs, finish] at h
  | some (w, left) =>
    simp only [hs, finish] at h
    split at h
    · rename_i hleft
      cases h
      obtain ⟨n, hn, hvalue⟩ := scan?_of_scalar? hv hs
      -- what is left is a suffix of a text without blanks, so it is not only blanks but empty
      have hsub : ∀ c ∈ left, isBlank c = false := fun c hc =>
        hblank c ((Number.stops_scan?.suffix hn).subset hc)
      rw [dropBlanks_of_forall hsub, List.isEmpty_iff] at hleft
      subst hleft
      rw [scalar?_of_scan? (Number.stops_scan?.append hn hrest), hvalue]
      rfl
    · cases h

namespace Number

theorem natValue_toDigits (n : Nat) : natValue (Nat.toDigits 10 n) = n := by
  have hstep : (fun n c => n * 10 + digitValue c) =
      fun (sofar : Nat) (c : Char) => 10 * sofar + (c.toNat - '0'.toNat) := by
    funext n c
    rw [digitValue, Nat.mul_comm]
  rw [natValue, hstep, ← Nat.ofDigitChars_eq_foldl, Nat.ofDigitChars_ten_toDigits]

/-- Written numbers have no leading zero. -/
theorem toDigits_eq_zero_cons {n : Nat} {ds : List Char} (h : Nat.toDigits 10 n = '0' :: ds) :
    ds = [] := by
  induction n using Nat.strongRecOn generalizing ds with
  | ind n ih =>
    by_cases hn : n < 10
    · rw [Nat.toDigits_of_lt_base hn] at h
      exact (List.cons.inj h).2.symm
    · rw [Nat.toDigits_of_base_le (by decide) (by omega)] at h
      obtain ⟨d, ds', hds⟩ :=
        List.exists_cons_of_ne_nil (Nat.toDigits_ne_nil (n := n / 10) (b := 10))
      rw [hds, List.cons_append] at h
      obtain ⟨rfl, -⟩ := List.cons.inj h
      have hzero : n / 10 = 0 := by
        rw [ih (n / 10) (by omega) hds] at hds
        rw [← natValue_toDigits (n / 10), hds]
        rfl
      omega

theorem whole?_toDigits (n : Nat) : whole? (Nat.toDigits 10 n) = some (Nat.toDigits 10 n, []) := by
  have hdigits : digits? (Nat.toDigits 10 n) = some (Nat.toDigits 10 n, []) := by
    refine digits?_eq_some_iff.mpr ⟨?_, Nat.toDigits_ne_nil⟩
    have hall : ∀ c ∈ Nat.toDigits 10 n, c.isDigit = true := fun c hc =>
      Nat.isDigit_of_mem_toDigits (by decide) (by decide) hc
    rw [List.span_eq_takeWhile_dropWhile, List.takeWhile_eq_self_iff.mpr hall,
      List.dropWhile_eq_nil_iff.mpr hall]
  refine whole?_eq_some_iff.mpr ⟨hdigits, fun d ds hds => ?_⟩
  cases toDigits_eq_zero_cons hds

theorem scan?_intChars (i : Int) :
    scan? (intChars i) = some (⟨decide (i < 0), Nat.toDigits 10 i.natAbs, [], none⟩, []) := by
  have hparts : ∀ negative, parts? negative (Nat.toDigits 10 i.natAbs) =
      some (⟨negative, Nat.toDigits 10 i.natAbs, [], none⟩, []) := by
    intro negative
    rw [parts?, whole?_toDigits]
    rfl
  by_cases hi : i < 0
  · rw [intChars, if_pos hi, List.singleton_append, scan?_cons, if_pos rfl, hparts,
      decide_eq_true hi]
  · obtain ⟨d, ds, hds⟩ :=
      List.exists_cons_of_ne_nil (Nat.toDigits_ne_nil (n := i.natAbs) (b := 10))
    have hd : d ≠ '-' := by
      rintro rfl
      have hdigit : ('-').isDigit = true :=
        Nat.isDigit_of_mem_toDigits (b := 10) (by decide) (by decide) (hds ▸ List.mem_cons_self)
      exact absurd hdigit (by decide)
    have hscan : scan? (Nat.toDigits 10 i.natAbs) = parts? false (Nat.toDigits 10 i.natAbs) := by
      rw [hds, scan?_cons, if_neg hd]
    rw [intChars, if_neg hi, List.nil_append, hscan, hparts, decide_eq_false hi]

end Number

theorem parse?_of_scan? {v : Json} {n : Number} (hv : v.isNumber = true)
    (hscan : Number.scan? v.chars = some (n, [])) (hvalue : n.value? = some v) :
    parse? 0 v.compact = some v := by
  have hscalar : scalar? v.chars = some (v, []) := by
    rw [scalar?_of_scan? hscan, hvalue]
    rfl
  simp only [parse?, compact, String.toList_ofList, value?,
    dropBlanks_of_forall (isBlank_chars hv), hscalar]
  rfl

/-- Every whole number of 64 bits, with or without a sign, reads back. -/
theorem parse?_compact_int {i : Int} (hlo : -9223372036854775808 ≤ i)
    (hhi : i < 18446744073709551616) :
    parse? 0 (Json.int i).compact = some (.int i) := by
  refine parse?_of_scan? rfl (Number.scan?_intChars i) ?_
  by_cases hi : i < 0
  · have hpos : 0 < i.natAbs ∧ i.natAbs ≤ 2 ^ 63 := by omega
    simp only [Number.value?, Number.toInt?, Number.natValue_toDigits, hi, decide_true, if_true,
      Nat.pow_eq, hpos, and_self]
    rw [show -(i.natAbs : Int) = i by omega]
  · have hword : i.natAbs < Number.word := by
      rw [Number.word, Nat.pow_eq]
      omega
    simp only [Number.value?, Number.toInt?, Number.natValue_toDigits, hi, decide_false,
      Bool.false_eq_true, if_false, hword, if_true]
    rw [show (i.natAbs : Int) = i by omega]

/-- A double reads back if the number that its text spells is rounded to it. -/
theorem parse?_compact_float {x : Binary64} {cs : List Char} {n : Number}
    (hchars : floatChars x = cs) (hscan : Number.scan? cs = some (n, [])) (hint : n.toInt? = none)
    (hvalue : n.toBinary64? = some x) : parse? 0 (Json.float x).compact = some (.float x) := by
  refine parse?_of_scan? rfl (hchars ▸ hscan) ?_
  simp [Number.value?, hint, hvalue]

end CallSchema.Json
