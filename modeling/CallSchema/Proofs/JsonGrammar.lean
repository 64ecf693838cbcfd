import CallSchema.Json.Skip
import CallSchema.Proofs.JsonNumbers

/-! # The grammar of JSON texts

A text spells a document: a tree of scalars, arrays and objects, without its blanks. The grammar
asks only for well-formed texts. A scalar or a key can be well-formed and still have no value: a
number that is no finite double, a string with half a surrogate pair. What the reader makes of a
text depends on the document alone, and so does what it passes over.

A relation of the grammar holds between a text and what is left of it behind the part it spells.
-/

namespace CallSchema

/-- A document as a text spells it, each scalar and each key with its value if it has one. -/
inductive RawJson where
  | scalar (value : Option Json)
  | arr (items : List RawJson)
  | obj (members : List (Option String × RawJson))

namespace RawJson

open Json

/-- A string after its opening quote. -/
inductive StringRest : List Char → List Char → Prop
  | close {rest : List Char} : StringRest ('"' :: rest) rest
  | plain {c : Char} {cs rest : List Char} (hquote : c ≠ '"') (hslash : c ≠ '\\')
      (hcontrol : 0x20 ≤ c.toNat) (h : StringRest cs rest) : StringRest (c :: cs) rest
  | escape {c : Char} {cs rest : List Char} (hc : (escaped? c).isSome) (h : StringRest cs rest) :
      StringRest ('\\' :: c :: cs) rest
  | unit {a b c d : Char} {cs rest : List Char} (hunit : (unit? a b c d).isSome)
      (h : StringRest cs rest) : StringRest ('\\' :: 'u' :: a :: b :: c :: d :: cs) rest

/-- The string after an opening quote, if it has no half of a surrogate pair. -/
def stringValue? (cs : List Char) : Option String :=
  (stringBody? [] cs).map Prod.fst

/-- A value without parts. -/
inductive Scalar : Option Json → List Char → List Char → Prop
  | null {rest : List Char} : Scalar (some .null) ('n' :: 'u' :: 'l' :: 'l' :: rest) rest
  | true {rest : List Char} : Scalar (some (.bool true)) ('t' :: 'r' :: 'u' :: 'e' :: rest) rest
  | false {rest : List Char} :
      Scalar (some (.bool false)) ('f' :: 'a' :: 'l' :: 's' :: 'e' :: rest) rest
  | string {cs rest : List Char} (h : StringRest cs rest) :
      Scalar ((stringValue? cs).map .str) ('"' :: cs) rest
  | number {n : Number} {cs rest : List Char} (h : Number.scan? cs = some (n, rest)) :
      Scalar n.value? cs rest

/-- A key with its colon. -/
inductive Key : Option String → List Char → List Char → Prop
  | mk {cs body mid rest : List Char} (hopen : dropBlanks cs = '"' :: body)
      (h : StringRest body mid) (hcolon : dropBlanks mid = ':' :: rest) :
      Key (stringValue? body) cs rest

/-- One part or more, separated by commas, with the closing bracket. -/
inductive Sequence {α : Type} (Part : α → List Char → List Char → Prop) (close : Char) :
    List α → List Char → List Char → Prop
  | last {a : α} {cs mid rest : List Char} (h : Part a cs mid)
      (hclose : dropBlanks mid = close :: rest) : Sequence Part close [a] cs rest
  | cons {a : α} {as : List α} {cs mid next rest : List Char} (h : Part a cs mid)
      (hcomma : dropBlanks mid = ',' :: next) (hrest : Sequence Part close as next rest) :
      Sequence Part close (a :: as) cs rest

inductive Member (Value : RawJson → List Char → List Char → Prop) :
    Option String × RawJson → List Char → List Char → Prop
  | mk {k : Option String} {d : RawJson} {cs mid rest : List Char} (hkey : Key k cs mid)
      (h : Value d mid rest) : Member Value (k, d) cs rest

/-- The text starts with a spelling of the document. -/
inductive Spells : RawJson → List Char → List Char → Prop
  | scalar {v : Option Json} {cs rest : List Char} (h : Scalar v (dropBlanks cs) rest) :
      Spells (.scalar v) cs rest
  | emptyArr {cs body rest : List Char} (hopen : dropBlanks cs = '[' :: body)
      (hclose : dropBlanks body = ']' :: rest) : Spells (.arr []) cs rest
  | arr {items : List RawJson} {cs body rest : List Char} (hopen : dropBlanks cs = '[' :: body)
      (h : Sequence Spells ']' items body rest) : Spells (.arr items) cs rest
  | emptyObj {cs body rest : List Char} (hopen : dropBlanks cs = '\x7b' :: body)
      (hclose : dropBlanks body = '\x7d' :: rest) : Spells (.obj []) cs rest
  | obj {members : List (Option String × RawJson)} {cs body rest : List Char}
      (hopen : dropBlanks cs = '\x7b' :: body)
      (h : Sequence (Member Spells) '\x7d' members body rest) : Spells (.obj members) cs rest

/-- The whole text spells the document. -/
def IsText (d : RawJson) (text : String) : Prop :=
  ∃ rest, Spells d text.toList rest ∧ dropBlanks rest = []

/-- A member whose key has a value, read in a way that may depend on the key. -/
def readMember? (read : String → RawJson → Option Json) (m : Option String × RawJson) :
    Option (String × Json) :=
  m.1.bind fun k => (read k m.2).map fun v => (k, v)

/-- The value of a document that is nested at most `depth` deep and all of whose scalars and keys
have values. -/
def read? : Nat → RawJson → Option Json
  | _, .scalar value => value
  | 0, _ => none
  | depth + 1, .arr items => (items.mapM (read? depth)).map .arr
  | depth + 1, .obj members => (members.mapM (readMember? fun _ => read? depth)).map .obj

/-- The value of a document whose own members are read as `null` unless they are kept. -/
def keep? (kept : String → Bool) : Nat → RawJson → Option Json
  | depth + 1, .obj members =>
    (members.mapM (readMember? fun k d => if kept k then d.read? depth else some .null)).map .obj
  | depth, d => d.read? depth

/-! ## Strings, keys and scalars -/

theorem StringRest.skipString? {cs rest : List Char} (h : StringRest cs rest) :
    skipString? cs = some rest := by
  induction h with
  | close => simp [Json.skipString?]
  | plain hquote hslash hcontrol h ih =>
    rw [Json.skipString?, if_neg (by omega), ih] <;> simp [hquote, hslash]
  | @escape c cs rest hc h ih =>
    have hu : c ≠ 'u' := by
      rintro rfl
      exact absurd hc (by decide)
    rw [Json.skipString?, if_pos hc, ih]
    simp [hu]
  | unit hunit h ih => rw [Json.skipString?, if_pos hunit, ih]

/-- Only well-formed strings are passed over. -/
theorem stringRest_of_skipString? {cs rest : List Char} (h : skipString? cs = some rest) :
    StringRest cs rest := by
  fun_induction Json.skipString? cs with
  | case1 => cases h
  | case2 =>
    cases h
    exact .close
  | case3 a b c d cs hunit ih => exact .unit hunit (ih h)
  | case4 => cases h
  | case5 c cs _ hc ih => exact .escape hc (ih h)
  | case6 => cases h
  | case7 => cases h
  | case8 c cs hquote _ hescape hcontrol ih =>
    have hslash : c ≠ '\\' := by
      rintro rfl
      cases cs with
      | nil => cases h
      | cons c cs => exact hescape c cs rfl rfl
    exact .plain hquote hslash (Nat.le_of_not_lt hcontrol) (ih h)

/-- A string that has a value ends where it is passed over. -/
theorem skipString?_of_stringBody? {done cs rest : List Char} {s : String}
    (h : stringBody? done cs = some (s, rest)) : skipString? cs = some rest := by
  fun_induction stringBody? done cs <;> simp_all [Json.skipString?]

theorem StringRest.stringBody? {cs rest : List Char} (h : StringRest cs rest) :
    stringBody? [] cs = (stringValue? cs).map fun s => (s, rest) := by
  rw [stringValue?]
  match hs : Json.stringBody? [] cs with
  | none => rfl
  | some (s, left) =>
    have hleft := (skipString?_of_stringBody? hs).symm.trans h.skipString?
    rw [← Option.some.inj hleft]
    rfl

theorem StringRest.length_lt {cs rest : List Char} (h : StringRest cs rest) :
    rest.length < cs.length := by
  induction h <;> simp only [List.length_cons] <;> omega

theorem length_dropBlanks_le (cs : List Char) : (dropBlanks cs).length ≤ cs.length :=
  List.length_dropWhile_le ..

/-- Behind blanks and a mark there is less text. -/
theorem length_lt_of_dropBlanks {c : Char} {cs rest : List Char} (h : dropBlanks cs = c :: rest) :
    rest.length < cs.length := by
  have hle := length_dropBlanks_le cs
  rw [h, List.length_cons] at hle
  exact hle

theorem Key.key? {k : Option String} {cs rest : List Char} (h : Key k cs rest) :
    key? cs = k.map fun k => (k, rest) := by
  obtain ⟨hopen, h, hcolon⟩ := h
  simp only [Json.key?, hopen, h.stringBody?]
  cases stringValue? _ with
  | none => rfl
  | some k => simp [hcolon]

theorem Key.skipKey? {k : Option String} {cs rest : List Char} (h : Key k cs rest) :
    skipKey? cs = some rest := by
  obtain ⟨hopen, h, hcolon⟩ := h
  simp [Json.skipKey?, hopen, h.skipString?, hcolon]

theorem Key.start {k : Option String} {cs rest : List Char} (h : Key k cs rest) :
    ∃ body, dropBlanks cs = '"' :: body := by
  obtain ⟨hopen, -, -⟩ := h
  exact ⟨_, hopen⟩

theorem Key.length_lt {k : Option String} {cs rest : List Char} (h : Key k cs rest) :
    rest.length < cs.length := by
  obtain ⟨hopen, h, hcolon⟩ := h
  have := length_lt_of_dropBlanks hopen
  have := length_lt_of_dropBlanks hcolon
  have := h.length_lt
  omega

theorem Scalar.scalar? {v : Option Json} {cs rest : List Char} (h : Scalar v cs rest) :
    scalar? cs = v.map fun v => (v, rest) := by
  cases h with
  | null | true | false => rfl
  | @string cs rest h =>
    simp only [Json.scalar?, h.stringBody?]
    cases stringValue? cs <;> rfl
  | number h => exact scalar?_of_scan? h

theorem scan?_start {n : Number} {cs rest : List Char} (h : Number.scan? cs = some (n, rest)) :
    ∃ c tail, cs = c :: tail ∧ c ∉ ['n', 't', 'f', '"', '[', ']', '\x7b'] := by
  cases cs with
  | nil => cases h
  | cons c tail =>
    refine ⟨c, tail, rfl, fun hc => ?_⟩
    have hnone : Number.scan? (c :: tail) = none := by
      simp only [List.mem_cons, List.not_mem_nil, or_false] at hc
      rcases hc with rfl | rfl | rfl | rfl | rfl | rfl | rfl <;> rfl
    rw [hnone] at h
    cases h

theorem Scalar.skipScalar? {v : Option Json} {cs rest : List Char} (h : Scalar v cs rest) :
    skipScalar? cs = some rest := by
  cases h with
  | null | true | false => rfl
  | string h => simp [Json.skipScalar?, h.skipString?]
  | number h =>
    obtain ⟨c, tail, rfl, hc⟩ := scan?_start h
    simp only [List.mem_cons, List.not_mem_nil, or_false, not_or] at hc
    simp [Json.skipScalar?, hc, h]

theorem Scalar.length_le {v : Option Json} {cs rest : List Char} (h : Scalar v cs rest) :
    rest.length ≤ cs.length := by
  cases h with
  | null | true | false => simp only [List.length_cons]; omega
  | string h =>
    have := h.length_lt
    simp only [List.length_cons]
    omega
  | number h => exact (Number.stops_scan?.suffix h).length_le

theorem Scalar.start {v : Option Json} {cs rest : List Char} (h : Scalar v cs rest) :
    ∃ c tail, cs = c :: tail ∧ c ∉ ['[', ']', '\x7b'] := by
  cases h with
  | null | true | false | string => exact ⟨_, _, rfl, by decide⟩
  | number h =>
    obtain ⟨c, tail, rfl, hc⟩ := scan?_start h
    simp only [List.mem_cons, List.not_mem_nil, or_false, not_or] at hc
    exact ⟨c, tail, rfl, by simp [hc]⟩

/-- The first item of an array is not mistaken for the closing bracket. -/
theorem Spells.start {d : RawJson} {cs rest : List Char} (h : Spells d cs rest) :
    ∃ c tail, dropBlanks cs = c :: tail ∧ c ≠ ']' := by
  cases h with
  | scalar h =>
    obtain ⟨c, tail, heq, hc⟩ := h.start
    exact ⟨c, tail, heq, fun h => hc (by simp [h])⟩
  | emptyArr hopen | arr hopen | emptyObj hopen | obj hopen => exact ⟨_, _, hopen, by decide⟩

theorem Sequence.first {α : Type} {Part : α → List Char → List Char → Prop} {close : Char}
    {as : List α} {cs rest : List Char} (h : Sequence Part close as cs rest) :
    ∃ a mid, Part a cs mid := by
  cases h with
  | last h | cons h => exact ⟨_, _, h⟩

/-! ## What is passed over -/

def closing : Bracket → Char
  | .square => ']'
  | .curly => '\x7d'

/-- Passes over the first part of a container that is not empty, and goes on from there. -/
def open? : Bracket → Nat → List Bracket → List Char → Option (List Char)
  | .square, fuel, frames, cs => skip? fuel (.square :: frames) cs
  | .curly, fuel, frames, cs => (skipKey? cs).bind (skip? fuel (.curly :: frames))

theorem skipRest?_close {b : Bracket} {cs rest : List Char}
    (h : dropBlanks cs = closing b :: rest) (fuel : Nat) (frames : List Bracket) :
    skipRest? (fuel + 1) (b :: frames) cs = skipRest? fuel frames rest := by
  cases b <;> simp [skipRest?, h, closing]

theorem skipRest?_comma {cs rest : List Char} (h : dropBlanks cs = ',' :: rest) (b : Bracket)
    (fuel : Nat) (frames : List Bracket) :
    skipRest? (fuel + 1) (b :: frames) cs = open? b fuel frames rest := by
  cases b with
  | square => simp [skipRest?, h, open?]
  | curly =>
    simp only [skipRest?, h, open?]
    cases skipKey? rest <;> rfl

/-- The parts of a container are passed over one by one if each of them is. -/
theorem Sequence.open? {α : Type} {Part : α → List Char → List Char → Prop} {b : Bracket}
    {as : List α} {cs rest : List Char} (bound : Nat)
    (hpart : ∀ a cs mid, Part a cs mid → cs.length ≤ bound →
      ∃ steps, steps + 2 * mid.length ≤ 2 * cs.length + 1 ∧
        ∀ fuel frames, open? b (fuel + steps) frames cs = skipRest? fuel (b :: frames) mid)
    (h : Sequence Part (closing b) as cs rest) (hbound : cs.length ≤ bound) :
    ∃ steps, steps + 2 * rest.length ≤ 2 * cs.length ∧
      ∀ fuel frames, open? b (fuel + steps) frames cs = skipRest? fuel frames rest := by
  induction h with
  | last h hclose =>
    obtain ⟨steps, hsteps, hopen⟩ := hpart _ _ _ h hbound
    have hlength := length_lt_of_dropBlanks hclose
    refine ⟨steps + 1, by omega, fun fuel frames => ?_⟩
    rw [show fuel + (steps + 1) = fuel + 1 + steps by omega, hopen, skipRest?_close hclose]
  | cons h hcomma _ ih =>
    obtain ⟨steps, hsteps, hopen⟩ := hpart _ _ _ h hbound
    have hlength := length_lt_of_dropBlanks hcomma
    obtain ⟨steps', hsteps', hopen'⟩ := ih (by omega)
    refine ⟨steps + steps' + 1, by omega, fun fuel frames => ?_⟩
    rw [show fuel + (steps + steps' + 1) = fuel + steps' + 1 + steps by omega, hopen,
      skipRest?_comma hcomma, hopen']

/-- A value is passed over in a number of steps that the length of its text bounds. -/
theorem Spells.skip? {d : RawJson} {cs rest : List Char} (h : Spells d cs rest) :
    ∃ steps, steps + 2 * rest.length ≤ 2 * cs.length + 1 ∧
      ∀ fuel frames, skip? (fuel + steps) frames cs = skipRest? fuel frames rest := by
  induction hn : cs.length using Nat.strongRecOn generalizing d cs rest with
  | ind n ih =>
    subst hn
    cases h with
    | scalar h =>
      have hlength := h.length_le.trans (length_dropBlanks_le cs)
      obtain ⟨c, tail, heq, hc⟩ := h.start
      have hskip := h.skipScalar?
      simp only [List.mem_cons, List.not_mem_nil, or_false, not_or] at hc
      refine ⟨1, by omega, fun fuel frames => ?_⟩
      rw [heq] at hskip
      simp [Json.skip?, heq, hc, hskip]
    | emptyArr hopen hclose | emptyObj hopen hclose =>
      have := length_lt_of_dropBlanks hopen
      have := length_lt_of_dropBlanks hclose
      refine ⟨1, by omega, fun fuel frames => ?_⟩
      simp [Json.skip?, hopen, hclose]
    | @arr items _ body _ hopen h =>
      have hlength := length_lt_of_dropBlanks hopen
      obtain ⟨steps, hsteps, hitems⟩ := Sequence.open? (b := .square) body.length
        (fun d cs mid h hle => by
          obtain ⟨steps, hsteps, hskip⟩ := ih cs.length (by omega) h rfl
          exact ⟨steps, hsteps, fun fuel frames => hskip fuel (.square :: frames)⟩) h le_rfl
      obtain ⟨first, mid, hfirst⟩ := h.first
      obtain ⟨c, tail, heq, hc⟩ := hfirst.start
      refine ⟨steps + 1, by omega, fun fuel frames => ?_⟩
      rw [← hitems fuel frames, ← Nat.add_assoc, RawJson.open?]
      simp [Json.skip?, hopen, heq, hc]
    | @obj members _ body _ hopen h =>
      have hlength := length_lt_of_dropBlanks hopen
      obtain ⟨steps, hsteps, hmembers⟩ := Sequence.open? (b := .curly) body.length
        (fun m cs mid h hle => by
          obtain ⟨hkey, h⟩ := h
          have := hkey.length_lt
          obtain ⟨steps, hsteps, hskip⟩ := ih _ (by omega) h rfl
          refine ⟨steps, by omega, fun fuel frames => ?_⟩
          rw [RawJson.open?, hkey.skipKey?, Option.bind_some, hskip]) h le_rfl
      obtain ⟨first, mid, hkey, -⟩ := h.first
      obtain ⟨body, hquote⟩ := hkey.start
      refine ⟨steps + 1, by omega, fun fuel frames => ?_⟩
      rw [← hmembers fuel frames, ← Nat.add_assoc, RawJson.open?, hkey.skipKey?]
      simp [Json.skip?, hopen, hquote, hkey.skipKey?]

theorem Spells.length_le {d : RawJson} {cs rest : List Char} (h : Spells d cs rest) :
    rest.length ≤ cs.length := by
  obtain ⟨steps, hsteps, -⟩ := h.skip?
  omega

end RawJson

end CallSchema
