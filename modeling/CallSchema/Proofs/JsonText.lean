import CallSchema.Json.Skip
import CallSchema.Proofs.JsonNumbers

/-! # Reading what was written

The compact text of a value reads back as that value if the texts of its numbers do. Strings and
the marks of containers never stand in the way.
-/

namespace CallSchema.Json

/-- Induction on values, the parts of a container being available as such. -/
@[elab_as_elim, induction_eliminator]
theorem induct {motive : Json → Prop} (null : motive .null) (bool : ∀ b, motive (.bool b))
    (int : ∀ i, motive (.int i)) (float : ∀ x, motive (.float x)) (str : ∀ s, motive (.str s))
    (arr : ∀ items, (∀ v ∈ items, motive v) → motive (.arr items))
    (obj : ∀ members, (∀ m ∈ members, motive m.2) → motive (.obj members)) : ∀ v, motive v := by
  intro v
  refine @Json.rec motive (fun vs => ∀ v ∈ vs, motive v) (fun ms => ∀ m ∈ ms, motive m.2)
    (fun m => motive m.2) null bool int float str arr obj ?_ ?_ ?_ ?_ ?_ v
  · intro v hv
    exact absurd hv List.not_mem_nil
  · intro head tail hhead htail
    exact List.forall_mem_cons.mpr ⟨hhead, htail⟩
  · intro m hm
    exact absurd hm List.not_mem_nil
  · intro head tail hhead htail
    exact List.forall_mem_cons.mpr ⟨hhead, htail⟩
  · intro key value hvalue
    exact hvalue

mutual

/-- The numbers of a value, from left to right. -/
def numbers : Json → List Json
  | .int i => [.int i]
  | .float x => [.float x]
  | .arr vs => numbersAll vs
  | .obj ms => numbersMembers ms
  | .null | .bool _ | .str _ => []

def numbersAll : List Json → List Json
  | [] => []
  | v :: vs => numbers v ++ numbersAll vs

def numbersMembers : List (String × Json) → List Json
  | [] => []
  | (_, v) :: ms => numbers v ++ numbersMembers ms

end

theorem numbersAll_eq (vs : List Json) : numbersAll vs = vs.flatMap numbers := by
  induction vs with
  | nil => rfl
  | cons v vs ih => rw [numbersAll, ih, List.flatMap_cons]

theorem numbersMembers_eq (ms : List (String × Json)) :
    numbersMembers ms = ms.flatMap fun m => numbers m.2 := by
  induction ms with
  | nil => rfl
  | cons m ms ih => rw [numbersMembers, ih, List.flatMap_cons]

/-- The texts of all numbers of a value read back, each as a document of its own. -/
def NumbersReadBack (v : Json) : Prop :=
  ∀ x ∈ v.numbers, parse? 0 x.compact = some x

@[simp]
theorem numbersReadBack_arr {vs : List Json} :
    (Json.arr vs).NumbersReadBack ↔ ∀ v ∈ vs, v.NumbersReadBack := by
  simp only [NumbersReadBack, numbers, numbersAll_eq, List.mem_flatMap, forall_exists_index,
    and_imp]
  exact ⟨fun h v hv x hx => h x v hv hx, fun h x v hv hx => h v hv x hx⟩

@[simp]
theorem numbersReadBack_obj {ms : List (String × Json)} :
    (Json.obj ms).NumbersReadBack ↔ ∀ m ∈ ms, m.2.NumbersReadBack := by
  simp only [NumbersReadBack, numbers, numbersMembers_eq, List.mem_flatMap, forall_exists_index,
    and_imp]
  exact ⟨fun h v hv x hx => h x v hv hx, fun h x v hv hx => h v hv x hx⟩

theorem depth_le_depthAll {v : Json} {vs : List Json} (h : v ∈ vs) : v.depth ≤ depthAll vs := by
  induction vs with
  | nil => cases h
  | cons w vs ih =>
    rw [depthAll]
    rcases List.mem_cons.mp h with rfl | h
    · exact Nat.le_max_left ..
    · exact (ih h).trans (Nat.le_max_right ..)

theorem depth_le_depthMembers {m : String × Json} {ms : List (String × Json)} (h : m ∈ ms) :
    m.2.depth ≤ depthMembers ms := by
  induction ms with
  | nil => cases h
  | cons w ms ih =>
    rw [depthMembers]
    rcases List.mem_cons.mp h with rfl | h
    · exact Nat.le_max_left ..
    · exact (ih h).trans (Nat.le_max_right ..)

theorem depth_item {v : Json} {vs : List Json} {depth : Nat}
    (h : (Json.arr vs).depth ≤ depth + 1) (hv : v ∈ vs) : v.depth ≤ depth :=
  (depth_le_depthAll hv).trans (Nat.le_of_succ_le_succ h)

theorem depth_member {m : String × Json} {ms : List (String × Json)} {depth : Nat}
    (h : (Json.obj ms).depth ≤ depth + 1) (hm : m ∈ ms) : m.2.depth ≤ depth :=
  (depth_le_depthMembers hm).trans (Nat.le_of_succ_le_succ h)

/-! ## Strings -/

theorem hexValue?_hexDigit : ∀ n < 16, hexValue? (hexDigit n) = some n := by
  decide

/-- How a character is written: as an escape of one letter, by its number or as itself. -/
theorem escapeChar_cases (c : Char) :
    (∃ e, escapeChar c = ['\\', e] ∧ e ≠ 'u' ∧ escaped? e = some c) ∨
      (c.toNat < 0x20 ∧ escapeChar c =
        ['\\', 'u', '0', '0', hexDigit (c.toNat / 16), hexDigit (c.toNat % 16)]) ∨
      (c ≠ '"' ∧ c ≠ '\\' ∧ ¬ c.toNat < 0x20 ∧ escapeChar c = [c]) := by
  unfold escapeChar
  repeat' split
  iterate 7
    subst_vars
    exact .inl ⟨_, rfl, by decide, by decide⟩
  · exact .inr (.inl ⟨‹_›, rfl⟩)
  · exact .inr (.inr ⟨‹_›, ‹_›, ‹_›, rfl⟩)

theorem stringBody?_escapeChar (c : Char) (done rest : List Char) :
    stringBody? done (escapeChar c ++ rest) = stringBody? (c :: done) rest := by
  rcases escapeChar_cases c with ⟨e, he, hu, hc⟩ | ⟨hc, he⟩ | ⟨hquote, hslash, hc, he⟩
  · simp [he, stringBody?, hu, hc]
  · have hunit : unit? '0' '0' (hexDigit (c.toNat / 16)) (hexDigit (c.toNat % 16)) =
        some c.toNat := by
      have hzero : hexValue? '0' = some 0 := by decide
      have hhigh := hexValue?_hexDigit (c.toNat / 16) (by omega)
      have hlow := hexValue?_hexDigit (c.toNat % 16) (by omega)
      simp only [unit?, hzero, hhigh, hlow, Option.bind_eq_bind, Option.bind_some]
      congr 1
      omega
    have hhigh : isHighSurrogate c.toNat = false := by
      simp only [isHighSurrogate, Bool.and_eq_false_iff, decide_eq_false_iff_not]
      omega
    have hlow : isLowSurrogate c.toNat = false := by
      simp only [isLowSurrogate, Bool.and_eq_false_iff, decide_eq_false_iff_not]
      omega
    simp [he, stringBody?, hunit, hhigh, hlow, Char.ofNat_toNat]
  · simp only [he, List.cons_append, List.nil_append]
    rw [stringBody?, if_neg hc] <;> simp [hquote, hslash]

theorem stringBody?_escaped (cs done rest : List Char) :
    stringBody? done (cs.flatMap escapeChar ++ '"' :: rest) =
      some (String.ofList (done.reverse ++ cs), rest) := by
  induction cs generalizing done with
  | nil => simp [stringBody?]
  | cons c cs ih =>
    rw [List.flatMap_cons, List.append_assoc, stringBody?_escapeChar, ih, List.reverse_cons,
      List.append_assoc, List.singleton_append]

theorem scalar?_quote (s : String) (rest : List Char) :
    scalar? (quote s ++ rest) = some (.str s, rest) := by
  simp [quote, scalar?, stringBody?_escaped]

theorem key?_quote (k : String) (rest : List Char) :
    key? (quote k ++ ':' :: rest) = some (k, rest) := by
  simp [quote, key?, dropBlanks, isBlank, stringBody?_escaped]

/-! ## Containers -/

theorem delimited_tailChars (vs : List Json) (rest : List Char) :
    Delimited (tailChars vs ++ rest) := by
  cases vs <;> simp [tailChars, delimited_cons]

theorem delimited_memberChars (ms : List (String × Json)) (rest : List Char) :
    Delimited (memberChars ms ++ rest) := by
  cases ms <;> simp [memberChars, delimited_cons]

/-- A reader takes the text of a value from the front of a longer text. -/
def Reads (read? : List Char → Option (Json × List Char)) (v : Json) : Prop :=
  ∀ tail, Delimited tail → read? (v.chars ++ tail) = some (v, tail)

/-- The items of an array, whatever reads each of them. -/
theorem items?_chars {item? : List Char → Option (Json × List Char)} {v : Json} {vs : List Json}
    {fuel : Nat} (hfuel : vs.length < fuel) (hread : ∀ w ∈ v :: vs, Reads item? w)
    (rest : List Char) :
    items? item? fuel (v.chars ++ (tailChars vs ++ rest)) = some (v :: vs, rest) := by
  induction vs generalizing v fuel with
  | nil =>
    obtain ⟨fuel, rfl⟩ := Nat.exists_eq_add_one_of_ne_zero (Nat.ne_zero_of_lt hfuel)
    have hv := hread v List.mem_cons_self _ (delimited_tailChars [] rest)
    simp only [items?, hv, Option.bind_eq_bind, Option.bind_some]
    simp [tailChars, dropBlanks, isBlank]
  | cons w vs ih =>
    obtain ⟨fuel, rfl⟩ := Nat.exists_eq_add_one_of_ne_zero (Nat.ne_zero_of_lt hfuel)
    have hv := hread v List.mem_cons_self _ (delimited_tailChars (w :: vs) rest)
    have hvs := ih (Nat.lt_of_succ_lt_succ hfuel) (List.forall_mem_cons.mp hread).2
    simp only [items?, hv, Option.bind_eq_bind, Option.bind_some]
    simp [tailChars, dropBlanks, isBlank, hvs]

/-- The members of an object, whatever reads the value under each key. -/
theorem members?_chars {member? : String → List Char → Option (Json × List Char)} {k : String}
    {v : Json} {ms : List (String × Json)} {fuel : Nat} (hfuel : ms.length < fuel)
    (hread : ∀ m ∈ (k, v) :: ms, Reads (member? m.1) m.2) (rest : List Char) :
    members? member? fuel (quote k ++ ':' :: (v.chars ++ (memberChars ms ++ rest))) =
      some ((k, v) :: ms, rest) := by
  induction ms generalizing k v fuel with
  | nil =>
    obtain ⟨fuel, rfl⟩ := Nat.exists_eq_add_one_of_ne_zero (Nat.ne_zero_of_lt hfuel)
    have hv := hread (k, v) List.mem_cons_self _ (delimited_memberChars [] rest)
    simp only [members?, key?_quote, hv, Option.bind_eq_bind, Option.bind_some]
    simp [memberChars, dropBlanks, isBlank]
  | cons m ms ih =>
    obtain ⟨fuel, rfl⟩ := Nat.exists_eq_add_one_of_ne_zero (Nat.ne_zero_of_lt hfuel)
    have hv := hread (k, v) List.mem_cons_self _ (delimited_memberChars (m :: ms) rest)
    have hms := ih (Nat.lt_of_succ_lt_succ hfuel) (List.forall_mem_cons.mp hread).2
    simp only [members?, key?_quote, hv, Option.bind_eq_bind, Option.bind_some]
    simp [memberChars, dropBlanks, isBlank, hms]

/-- A text bounds the number of its items and the texts of these. -/
theorem tailChars_bounds (vs : List Json) :
    vs.length < (tailChars vs).length ∧ ∀ v ∈ vs, v.chars.length ≤ (tailChars vs).length := by
  induction vs with
  | nil => simp [tailChars]
  | cons v vs ih =>
    simp only [tailChars, List.length_cons, List.length_append, List.forall_mem_cons]
    refine ⟨by omega, by omega, fun w hw => ?_⟩
    have := ih.2 w hw
    omega

theorem memberChars_bounds (ms : List (String × Json)) :
    ms.length < (memberChars ms).length ∧
      ∀ m ∈ ms, m.2.chars.length ≤ (memberChars ms).length := by
  induction ms with
  | nil => simp [memberChars]
  | cons m ms ih =>
    simp only [memberChars, List.length_cons, List.length_append, List.forall_mem_cons]
    refine ⟨by omega, by omega, fun w hw => ?_⟩
    have := ih.2 w hw
    omega

theorem arr_bounds (vs : List Json) :
    vs.length ≤ (Json.arr vs).chars.length ∧
      ∀ v ∈ vs, v.chars.length ≤ (Json.arr vs).chars.length := by
  obtain ⟨hlength, hitems⟩ := tailChars_bounds vs
  have hle : (tailChars vs).length ≤ (Json.arr vs).chars.length := by
    cases vs <;> simp [chars, tailChars]
  exact ⟨hlength.le.trans hle, fun v hv => (hitems v hv).trans hle⟩

theorem obj_bounds (ms : List (String × Json)) :
    ms.length ≤ (Json.obj ms).chars.length ∧
      ∀ m ∈ ms, m.2.chars.length ≤ (Json.obj ms).chars.length := by
  obtain ⟨hlength, hmembers⟩ := memberChars_bounds ms
  have hle : (memberChars ms).length ≤ (Json.obj ms).chars.length := by
    cases ms <;> simp [chars, memberChars]
  exact ⟨hlength.le.trans hle, fun m hm => (hmembers m hm).trans hle⟩

theorem value?_of_scalar? {cs : List Char} {p : Json × List Char} (h : scalar? cs = some p)
    (fuel depth : Nat) : value? fuel depth cs = some p := by
  obtain ⟨c, rest, rfl, hc⟩ := scalar?_start h
  simp only [List.mem_cons, List.not_mem_nil, or_false, not_or] at hc
  have hblank : dropBlanks (c :: rest) = c :: rest := dropBlanks_cons (by simp [isBlank, hc]) rest
  cases depth with
  | zero => rw [value?, hblank, h]
  | succ depth => simp [value?, hblank, h, hc]

/-- An object after its opening brace, whatever reads the value under each key. -/
theorem object?_chars (member? : String → List Char → Option (Json × List Char))
    {ms : List (String × Json)} {fuel : Nat} (hfuel : ms.length ≤ fuel)
    (hread : ∀ m ∈ ms, Reads (member? m.1) m.2) :
    ∃ body, (Json.obj ms).chars = '\x7b' :: body ∧
      ∀ rest, object? member? fuel (body ++ rest) = some (.obj ms, rest) := by
  cases ms with
  | nil => exact ⟨['\x7d'], rfl, fun rest => by simp [object?, dropBlanks, isBlank]⟩
  | cons m ms =>
    refine ⟨_, rfl, fun rest => ?_⟩
    have hms := members?_chars (Nat.lt_of_succ_le hfuel) hread rest
    simp only [List.append_assoc, List.cons_append]
    rw [object?, hms]
    simp [quote, dropBlanks, isBlank]

theorem reads_scalar? {v : Json} (hv : v.depth = 0) (h : v.NumbersReadBack) : Reads scalar? v := by
  intro rest hrest
  cases v with
  | null => rfl
  | bool b => cases b <;> rfl
  | int i => exact scalar?_number rfl (h (.int i) List.mem_cons_self) hrest
  | float x => exact scalar?_number rfl (h (.float x) List.mem_cons_self) hrest
  | str s => exact scalar?_quote s rest
  | arr vs => cases hv
  | obj ms => cases hv

theorem chars_start {v : Json} (h : v.NumbersReadBack) :
    ∃ c cs, v.chars = c :: cs ∧ isBlank c = false ∧ c ≠ ']' := by
  by_cases hv : v.depth = 0
  · have hscalar := reads_scalar? hv h [] delimited_nil
    rw [List.append_nil] at hscalar
    obtain ⟨c, cs, hcs, hc⟩ := scalar?_start hscalar
    simp only [List.mem_cons, List.not_mem_nil, or_false, not_or] at hc
    exact ⟨c, cs, hcs, by simp [isBlank, hc], by simp [hc]⟩
  · cases v with
    | arr vs => cases vs <;> exact ⟨'[', _, rfl, rfl, by decide⟩
    | obj ms => cases ms <;> exact ⟨'\x7b', _, rfl, rfl, by decide⟩
    | _ => exact absurd rfl hv

theorem array?_chars {item? : List Char → Option (Json × List Char)} {vs : List Json} {fuel : Nat}
    (hfuel : vs.length ≤ fuel) (hnumbers : ∀ v ∈ vs, v.NumbersReadBack)
    (hread : ∀ v ∈ vs, Reads item? v) :
    ∃ body, (Json.arr vs).chars = '[' :: body ∧
      ∀ rest, array? item? fuel (body ++ rest) = some (.arr vs, rest) := by
  cases vs with
  | nil => exact ⟨[']'], rfl, fun rest => by simp [array?, dropBlanks, isBlank]⟩
  | cons v vs =>
    refine ⟨_, rfl, fun rest => ?_⟩
    have hvs := items?_chars (Nat.lt_of_succ_le hfuel) hread rest
    -- the first item must not be taken for the closing bracket
    obtain ⟨c, cs, hcs, hblank, hclose⟩ := chars_start (hnumbers v List.mem_cons_self)
    rw [List.append_assoc, array?, hvs]
    simp [hcs, dropBlanks_cons hblank, hclose]

/-- What is written reads back, in front of the end or a mark, if its numbers do. -/
theorem reads_value? {v : Json} {fuel depth : Nat} (hfuel : v.chars.length ≤ fuel)
    (hdepth : v.depth ≤ depth) (hnumbers : v.NumbersReadBack) : Reads (value? fuel depth) v := by
  induction v generalizing depth with
  | arr vs ih =>
    obtain ⟨hlength, hitems⟩ := arr_bounds vs
    obtain ⟨depth, rfl⟩ := Nat.exists_eq_add_one_of_ne_zero (Nat.ne_zero_of_lt hdepth)
    have hparts : ∀ v ∈ vs, Reads (value? fuel depth) v := by
      intro v hv
      exact ih v hv ((hitems v hv).trans hfuel) (depth_item hdepth hv)
        (numbersReadBack_arr.mp hnumbers v hv)
    obtain ⟨body, hbody, hread⟩ :=
      array?_chars (hlength.trans hfuel) (numbersReadBack_arr.mp hnumbers) hparts
    intro rest _
    rw [hbody, List.cons_append, value?, dropBlanks_cons rfl]
    exact hread rest
  | obj ms ih =>
    obtain ⟨hlength, hmembers⟩ := obj_bounds ms
    obtain ⟨depth, rfl⟩ := Nat.exists_eq_add_one_of_ne_zero (Nat.ne_zero_of_lt hdepth)
    have hparts : ∀ m ∈ ms, Reads (value? fuel depth) m.2 := by
      intro m hm
      exact ih m hm ((hmembers m hm).trans hfuel) (depth_member hdepth hm)
        (numbersReadBack_obj.mp hnumbers m hm)
    obtain ⟨body, hbody, hread⟩ :=
      object?_chars (fun _ => value? fuel depth) (hlength.trans hfuel) hparts
    intro rest _
    rw [hbody, List.cons_append, value?, dropBlanks_cons rfl]
    exact hread rest
  | _ =>
    intro rest hrest
    exact value?_of_scalar? (reads_scalar? rfl hnumbers rest hrest) fuel depth

/-- A document that is an object reads back if all its keys are kept. -/
theorem parseKeeping?_compact {kept : String → Bool} {depth : Nat} {ms : List (String × Json)}
    (hkept : ∀ m ∈ ms, kept m.1 = true) (hdepth : (Json.obj ms).depth ≤ depth)
    (hnumbers : (Json.obj ms).NumbersReadBack) :
    parseKeeping? kept depth (Json.obj ms).compact = some (.obj ms) := by
  obtain ⟨hlength, hmembers⟩ := obj_bounds ms
  obtain ⟨inner, rfl⟩ := Nat.exists_eq_add_one_of_ne_zero (Nat.ne_zero_of_lt hdepth)
  generalize hfuel : (Json.obj ms).chars.length = fuel at hlength hmembers
  have hparts : ∀ m ∈ ms, Reads (fun cs => if kept m.1 then value? fuel inner cs
      else (skip? (2 * fuel + 1) [] cs).map fun rest => (.null, rest)) m.2 := by
    intro m hm tail htail
    simp only [hkept m hm, if_true]
    exact reads_value? (hmembers m hm) (depth_member hdepth hm)
      (numbersReadBack_obj.mp hnumbers m hm) tail htail
  obtain ⟨body, hbody, hread⟩ := object?_chars
    (fun k cs => if kept k then value? fuel inner cs
      else (skip? (2 * fuel + 1) [] cs).map fun rest => (.null, rest)) hlength hparts
  have hobject := hread []
  rw [List.append_nil] at hobject
  have hblank : dropBlanks (Json.obj ms).chars = '\x7b' :: body := by
    rw [hbody, dropBlanks_cons rfl]
  simp only [parseKeeping?, compact, String.toList_ofList, hblank, hfuel, hobject]
  rfl

end CallSchema.Json
