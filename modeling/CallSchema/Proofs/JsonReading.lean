import CallSchema.Proofs.JsonGrammar

/-! # Reading what a text spells

What the reader makes of a text is decided by the document that the text spells, and every text
that it reads spells a document. So texts that differ only in their blanks, or in how they write
the characters of their strings, are read alike.
-/

namespace CallSchema

namespace RawJson

open Json

/-- A text has room for the parts of each of its containers. -/
theorem Sequence.length_le {α : Type} {Part : α → List Char → List Char → Prop} {close : Char}
    {as : List α} {cs rest : List Char}
    (hpart : ∀ a cs mid, Part a cs mid → mid.length ≤ cs.length)
    (h : Sequence Part close as cs rest) : as.length ≤ cs.length := by
  induction h with
  | last h hclose =>
    have := hpart _ _ _ h
    have := length_lt_of_dropBlanks hclose
    simp only [List.length_cons, List.length_nil]
    omega
  | cons h hcomma _ ih =>
    have := hpart _ _ _ h
    have := length_lt_of_dropBlanks hcomma
    simp only [List.length_cons]
    omega

theorem Member.length_le {m : Option String × RawJson} {cs rest : List Char}
    (h : Member Spells m cs rest) : rest.length ≤ cs.length := by
  obtain ⟨hkey, h⟩ := h
  exact h.length_le.trans hkey.length_lt.le

/-- The items of an array, whatever reads each of them. -/
theorem Sequence.items? {item? : List Char → Option (Json × List Char)}
    {read : RawJson → Option Json} {bound fuel : Nat} {items : List RawJson} {cs rest : List Char}
    (hitem : ∀ d cs rest, Spells d cs rest → cs.length ≤ bound →
      item? cs = (read d).map fun v => (v, rest))
    (h : Sequence Spells ']' items cs rest) (hbound : cs.length ≤ bound)
    (hfuel : items.length ≤ fuel) :
    items? item? fuel cs = (items.mapM read).map fun vs => (vs, rest) := by
  induction h generalizing fuel with
  | @last d cs mid rest h hclose =>
    obtain ⟨fuel, rfl⟩ := Nat.exists_eq_add_one_of_ne_zero (Nat.ne_zero_of_lt hfuel)
    simp only [Json.items?, hitem _ _ _ h hbound, List.mapM_cons, List.mapM_nil]
    cases read d with
    | none => rfl
    | some v => simp [hclose]
  | @cons d ds cs mid next rest h hcomma hrest ih =>
    obtain ⟨fuel, rfl⟩ := Nat.exists_eq_add_one_of_ne_zero (Nat.ne_zero_of_lt hfuel)
    have hnext := length_lt_of_dropBlanks hcomma
    have hmid := h.length_le
    simp only [Json.items?, hitem _ _ _ h hbound, List.mapM_cons]
    cases read d with
    | none => rfl
    | some v =>
      have hitems := ih (by omega) (Nat.le_of_succ_le_succ hfuel)
      simp only [Option.map_some, Option.bind_eq_bind, Option.bind_some, hcomma, hitems]
      cases ds.mapM read <;> rfl

/-- The members of an object, whatever reads the value under each key. -/
theorem Sequence.members? {member? : String → List Char → Option (Json × List Char)}
    {read : String → RawJson → Option Json} {bound fuel : Nat}
    {members : List (Option String × RawJson)} {cs rest : List Char}
    (hmember : ∀ k d cs rest, Spells d cs rest → cs.length ≤ bound →
      member? k cs = (read k d).map fun v => (v, rest))
    (h : Sequence (Member Spells) '\x7d' members cs rest) (hbound : cs.length ≤ bound)
    (hfuel : members.length ≤ fuel) :
    members? member? fuel cs = (members.mapM (readMember? read)).map fun ms => (ms, rest) := by
  induction h generalizing fuel with
  | last h hclose =>
    obtain ⟨fuel, rfl⟩ := Nat.exists_eq_add_one_of_ne_zero (Nat.ne_zero_of_lt hfuel)
    obtain @⟨k, d, _, value, _, hkey, h⟩ := h
    have hvalue := hkey.length_lt
    simp only [Json.members?, hkey.key?, List.mapM_cons, List.mapM_nil, readMember?]
    cases k with
    | none => rfl
    | some k =>
      simp only [Option.map_some, Option.bind_eq_bind, Option.bind_some,
        hmember k d value _ h (by omega)]
      cases read k d with
      | none => rfl
      | some v => simp [hclose]
  | @cons _ ms _ _ next rest h hcomma hrest ih =>
    obtain ⟨fuel, rfl⟩ := Nat.exists_eq_add_one_of_ne_zero (Nat.ne_zero_of_lt hfuel)
    have hmid := h.length_le
    obtain @⟨k, d, _, value, _, hkey, h⟩ := h
    have hvalue := hkey.length_lt
    have hnext := length_lt_of_dropBlanks hcomma
    have hms := ih (by omega) (Nat.le_of_succ_le_succ hfuel)
    simp only [Json.members?, hkey.key?, List.mapM_cons]
    cases k with
    | none => rfl
    | some k =>
      simp only [Option.map_some, Option.bind_eq_bind, Option.bind_some, readMember?,
        hmember k d value _ h (by omega)]
      cases read k d with
      | none => rfl
      | some v =>
        simp only [Option.map_some, Option.bind_some, hcomma, hms]
        cases ms.mapM (readMember? read) <;> rfl

theorem Sequence.object? {member? : String → List Char → Option (Json × List Char)}
    {read : String → RawJson → Option Json} {fuel : Nat}
    {members : List (Option String × RawJson)} {cs rest : List Char}
    (hmember : ∀ k d cs rest, Spells d cs rest → cs.length ≤ fuel →
      member? k cs = (read k d).map fun v => (v, rest))
    (h : Sequence (Member Spells) '\x7d' members cs rest) (hfuel : cs.length ≤ fuel) :
    object? member? fuel cs =
      ((members.mapM (readMember? read)).map .obj).map fun v => (v, rest) := by
  have hlength := h.length_le fun _ _ _ h => h.length_le
  have hmembers := h.members? hmember hfuel (hlength.trans hfuel)
  obtain ⟨first, mid, hkey, -⟩ := h.first
  obtain ⟨body, hquote⟩ := hkey.start
  simp only [Json.object?, hquote, hmembers]
  cases members.mapM (readMember? read) <;> rfl

theorem Sequence.array? {item? : List Char → Option (Json × List Char)}
    {read : RawJson → Option Json} {fuel : Nat} {items : List RawJson} {cs rest : List Char}
    (hitem : ∀ d cs rest, Spells d cs rest → cs.length ≤ fuel →
      item? cs = (read d).map fun v => (v, rest))
    (h : Sequence Spells ']' items cs rest) (hfuel : cs.length ≤ fuel) :
    array? item? fuel cs = ((items.mapM read).map .arr).map fun v => (v, rest) := by
  have hlength := h.length_le fun _ _ _ h => h.length_le
  have hitems := h.items? hitem hfuel (hlength.trans hfuel)
  obtain ⟨first, mid, hfirst⟩ := h.first
  obtain ⟨c, tail, heq, hc⟩ := hfirst.start
  simp only [Json.array?, heq, hitems]
  cases items.mapM read <;> simp [hc]

/-- What is read from a text depends only on the document that it spells. -/
theorem Spells.value? {fuel depth : Nat} {d : RawJson} {cs rest : List Char}
    (h : Spells d cs rest) (hfuel : cs.length ≤ fuel) :
    value? fuel depth cs = (d.read? depth).map fun v => (v, rest) := by
  induction depth generalizing d cs rest with
  | zero =>
    cases h with
    | scalar h => rw [Json.value?, h.scalar?, read?]
    | emptyArr hopen | arr hopen | emptyObj hopen | obj hopen =>
      simp only [Json.value?, hopen, read?]
      rfl
  | succ depth ih =>
    cases h with
    | scalar h =>
      obtain ⟨c, tail, heq, hc⟩ := h.start
      have hscalar := h.scalar?
      simp only [List.mem_cons, List.not_mem_nil, or_false, not_or] at hc
      rw [heq] at hscalar
      simp [Json.value?, heq, hc, hscalar, read?]
    | emptyArr hopen hclose => simp [Json.value?, hopen, Json.array?, hclose, read?]
    | emptyObj hopen hclose => simp [Json.value?, hopen, Json.object?, hclose, read?]
    | arr hopen h =>
      have hbody := length_lt_of_dropBlanks hopen
      have harray := h.array? (fun d cs rest h hle => ih h hle) (by omega)
      simp only [Json.value?, hopen, harray, read?]
    | obj hopen h =>
      have hbody := length_lt_of_dropBlanks hopen
      have hobject := h.object? (fun _ d cs rest h hle => ih h hle) (by omega)
      simp only [Json.value?, hopen, hobject, read?]

theorem finish_map {o : Option Json} {rest : List Char} (h : dropBlanks rest = []) :
    finish (o.map fun v => (v, rest)) = o := by
  cases o <;> simp [finish, h]

/-- The members that are not kept are passed over, whatever they are. -/
theorem Spells.keepMember? {fuel : Nat} {d : RawJson} {cs rest : List Char} (h : Spells d cs rest)
    (hfuel : cs.length ≤ fuel) (kept : String → Bool) (depth : Nat) (k : String) :
    (if kept k then Json.value? fuel depth cs
      else (Json.skip? (2 * fuel + 1) [] cs).map fun rest => (.null, rest)) =
      (if kept k then d.read? depth else some .null).map fun v => (v, rest) := by
  split
  · exact h.value? hfuel
  · obtain ⟨steps, hsteps, hskip⟩ := h.skip?
    rw [show 2 * fuel + 1 = 2 * fuel + 1 - steps + steps by omega, hskip]
    cases 2 * fuel + 1 - steps <;> rfl

/-- The value of a text is that of the document it spells, and there is none if that has none. -/
theorem IsText.parseKeeping? {d : RawJson} {text : String} (h : d.IsText text)
    (kept : String → Bool) (depth : Nat) :
    parseKeeping? kept (depth + 1) text = d.keep? kept (depth + 1) := by
  obtain ⟨rest, h, hrest⟩ := h
  have hvalue := finish_map (o := d.read? (depth + 1)) hrest
  rw [← h.value? le_rfl] at hvalue
  cases h with
  | scalar h =>
    obtain ⟨c, tail, heq, hc⟩ := h.start
    simp only [List.mem_cons, List.not_mem_nil, or_false, not_or] at hc
    simp [Json.parseKeeping?, heq, hc, hvalue, keep?]
  | emptyArr hopen | arr hopen => simp [Json.parseKeeping?, hopen, hvalue, keep?]
  | emptyObj hopen hclose =>
    simp only [Json.parseKeeping?, hopen, Json.object?, hclose, keep?, List.mapM_nil]
    exact finish_map (o := some (.obj [])) hrest
  | obj hopen h =>
    have hbody := length_lt_of_dropBlanks hopen
    have hobject := h.object? (fun k d cs rest h hle => h.keepMember? hle kept depth k) hbody.le
    simp only [Json.parseKeeping?, hopen, hobject, finish_map hrest, keep?]

/-! ## What is read is spelled -/

mutual

/-- A value as a document. -/
def ofJson : Json → RawJson
  | .arr vs => .arr (ofJsonAll vs)
  | .obj ms => .obj (ofJsonMembers ms)
  | v => .scalar (some v)

def ofJsonAll : List Json → List RawJson
  | [] => []
  | v :: vs => ofJson v :: ofJsonAll vs

def ofJsonMembers : List (String × Json) → List (Option String × RawJson)
  | [] => []
  | (k, v) :: ms => (some k, ofJson v) :: ofJsonMembers ms

end

theorem stringRest_of_stringBody? {cs rest : List Char} {s : String}
    (h : stringBody? [] cs = some (s, rest)) : StringRest cs rest ∧ stringValue? cs = some s :=
  ⟨stringRest_of_skipString? (skipString?_of_stringBody? h),
    by rw [stringValue?, h, Option.map_some]⟩

theorem ofJson_number {n : Number} {v : Json} (h : n.value? = some v) :
    ofJson v = .scalar (some v) := by
  unfold Number.value? at h
  split at h
  · cases h
    rfl
  · obtain ⟨x, -, rfl⟩ := Option.map_eq_some_iff.mp h
    rfl

theorem spells_of_scalar? {cs rest : List Char} {v : Json}
    (h : scalar? (dropBlanks cs) = some (v, rest)) : Spells (ofJson v) cs rest := by
  have hscalar : Scalar (some v) (dropBlanks cs) rest ∧ ofJson v = .scalar (some v) := by
    generalize dropBlanks cs = cs at h
    unfold Json.scalar? at h
    split at h
    · cases h
      exact ⟨.null, rfl⟩
    · cases h
      exact ⟨.true, rfl⟩
    · cases h
      exact ⟨.false, rfl⟩
    · obtain ⟨⟨s, left⟩, hs, h⟩ := Option.bind_eq_some_iff.mp h
      cases h
      obtain ⟨hrest, hvalue⟩ := stringRest_of_stringBody? hs
      have hstring := Scalar.string hrest
      rw [hvalue] at hstring
      exact ⟨hstring, rfl⟩
    · obtain ⟨⟨n, left⟩, hn, h⟩ := Option.bind_eq_some_iff.mp h
      obtain ⟨w, hw, h⟩ := Option.bind_eq_some_iff.mp h
      cases h
      have hnumber := Scalar.number hn
      rw [hw] at hnumber
      exact ⟨hnumber, ofJson_number hw⟩
  rw [hscalar.2]
  exact .scalar hscalar.1

theorem key_of_key? {k : String} {cs rest : List Char} (h : key? cs = some (k, rest)) :
    Key (some k) cs rest := by
  unfold Json.key? at h
  split at h
  · rename_i body hopen
    obtain ⟨⟨s, mid⟩, hs, h⟩ := Option.bind_eq_some_iff.mp h
    obtain ⟨hrest, hvalue⟩ := stringRest_of_stringBody? hs
    dsimp only at h
    split at h
    · rename_i hcolon
      cases h
      rw [← hvalue]
      exact .mk hopen hrest hcolon
    · cases h
  · cases h

theorem sequence_of_items? {item? : List Char → Option (Json × List Char)} {fuel : Nat}
    {cs rest : List Char} {vs : List Json}
    (hitem : ∀ cs rest v, item? cs = some (v, rest) → Spells (ofJson v) cs rest)
    (h : items? item? fuel cs = some (vs, rest)) :
    Sequence Spells ']' (ofJsonAll vs) cs rest := by
  induction fuel generalizing cs vs with
  | zero => cases h
  | succ fuel ih =>
    obtain ⟨⟨v, mid⟩, hv, h⟩ := Option.bind_eq_some_iff.mp h
    dsimp only at h
    split at h
    · rename_i hclose
      cases h
      exact .last (hitem _ _ _ hv) hclose
    · rename_i hcomma
      obtain ⟨⟨vs, left⟩, hvs, h⟩ := Option.bind_eq_some_iff.mp h
      cases h
      exact .cons (hitem _ _ _ hv) hcomma (ih hvs)
    · cases h

theorem sequence_of_members? {member? : String → List Char → Option (Json × List Char)}
    {fuel : Nat} {cs rest : List Char} {ms : List (String × Json)}
    (hmember : ∀ k cs rest v, member? k cs = some (v, rest) → Spells (ofJson v) cs rest)
    (h : members? member? fuel cs = some (ms, rest)) :
    Sequence (Member Spells) '\x7d' (ofJsonMembers ms) cs rest := by
  induction fuel generalizing cs ms with
  | zero => cases h
  | succ fuel ih =>
    obtain ⟨⟨k, mid⟩, hk, h⟩ := Option.bind_eq_some_iff.mp h
    obtain ⟨⟨v, mid'⟩, hv, h⟩ := Option.bind_eq_some_iff.mp h
    have hmember := Member.mk (key_of_key? hk) (hmember _ _ _ _ hv)
    dsimp only at h
    split at h
    · rename_i hclose
      cases h
      exact .last hmember hclose
    · rename_i hcomma
      obtain ⟨⟨ms, left⟩, hms, h⟩ := Option.bind_eq_some_iff.mp h
      cases h
      exact .cons hmember hcomma (ih hms)
    · cases h

theorem spells_of_value? {fuel depth : Nat} {cs rest : List Char} {v : Json}
    (h : value? fuel depth cs = some (v, rest)) : Spells (ofJson v) cs rest := by
  induction depth generalizing cs rest v with
  | zero => exact spells_of_scalar? h
  | succ depth ih =>
    rw [Json.value?] at h
    split at h
    · rename_i hopen
      unfold Json.array? at h
      split at h
      · rename_i hclose
        cases h
        exact .emptyArr hopen hclose
      · obtain ⟨⟨vs, left⟩, hvs, h⟩ := Option.bind_eq_some_iff.mp h
        cases h
        exact .arr hopen (sequence_of_items? (fun _ _ _ h => ih h) hvs)
    · rename_i hopen
      unfold Json.object? at h
      split at h
      · rename_i hclose
        cases h
        exact .emptyObj hopen hclose
      · obtain ⟨⟨ms, left⟩, hms, h⟩ := Option.bind_eq_some_iff.mp h
        cases h
        exact .obj hopen (sequence_of_members? (fun _ _ _ _ h => ih h) hms)
    · exact spells_of_scalar? h

/-- Only well-formed texts are read, each as the document that it spells. -/
theorem isText_of_parse? (depth : Nat) {text : String} {v : Json}
    (h : parse? depth text = some v) : (ofJson v).IsText text := by
  rw [parse?] at h
  cases hv : Json.value? text.toList.length depth text.toList with
  | none => simp [hv, finish] at h
  | some p =>
    simp only [hv, finish] at h
    split at h
    · rename_i hrest
      cases h
      exact ⟨p.2, spells_of_value? hv, List.isEmpty_iff.mp hrest⟩
    · cases h

end RawJson

end CallSchema
