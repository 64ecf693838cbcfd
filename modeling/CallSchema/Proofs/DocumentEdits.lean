import Mathlib.Data.List.Forall2
import Mathlib.Logic.Relation
import CallSchema.Proofs.JsonReading
import CallSchema.Proofs.NodeEdits
import CallSchema.SourceFile

/-! # Edits of documents

Neither the order of the members of an object nor members that no reader looks up matter for what
a document is loaded as. One edit permutes the members of one object, or puts a member with an
unknown key into one that stands for a node; documents that a number of edits lead between are
loaded alike, however they are spelled.
-/

namespace CallSchema

namespace RawJson

mutual

/-- The value of a document; what has none is taken for `null`, and for the empty key. -/
def outline : RawJson → Json
  | .scalar value => value.getD .null
  | .arr items => .arr (outlineAll items)
  | .obj members => .obj (outlineMembers members)

def outlineAll : List RawJson → List Json
  | [] => []
  | d :: ds => outline d :: outlineAll ds

def outlineMembers : List (Option String × RawJson) → List (String × Json)
  | [] => []
  | (k, d) :: ms => (k.getD "", outline d) :: outlineMembers ms

end

/-- One edit of a document, at a place where a value may be nested `depth` deep. The members of any
object can be permuted. A member can be put into an object that stands for a node if the node has no
field of its name and the value is within the limits there. -/
inductive Edit : Place → Nat → RawJson → RawJson → Prop
  | permute {p : Place} {depth : Nat} {ms ms' : List (Option String × RawJson)}
      (h : ms.Perm ms') : Edit p depth (.obj ms) (.obj ms')
  | insert {role : Role} {depth : Nat} {before after : List (Option String × RawJson)}
      {key : String} {value : RawJson}
      (hkey : key ∉ (role.layout (outline (.obj (before ++ after)))).keys)
      (hvalue : (value.read? (depth - 1)).isSome) :
      Edit (.node role) depth (.obj (before ++ after)) (.obj (before ++ (some key, value) :: after))
  | item {p : Place} {depth : Nat} {before after : List RawJson} {d d' : RawJson}
      (h : Edit (p.item (outline (.arr (before ++ d :: after))) before.length) (depth - 1) d d') :
      Edit p depth (.arr (before ++ d :: after)) (.arr (before ++ d' :: after))
  | member {p : Place} {depth : Nat} {before after : List (Option String × RawJson)}
      {key : Option String} {d d' : RawJson}
      (h : Edit (p.member (outline (.obj (before ++ (key, d) :: after))) (key.getD "")) (depth - 1)
        d d') :
      Edit p depth (.obj (before ++ (key, d) :: after)) (.obj (before ++ (key, d') :: after))

end RawJson

/-! ## Lists of parts -/

section Parts

variable {α β : Type} {f : α → Option β}

theorem mapM_cons_eq (a : α) (as : List α) :
    (a :: as).mapM f = (f a).bind fun x => (as.mapM f).map fun xs => x :: xs := by
  rw [List.mapM_cons]
  cases f a with
  | none => rfl
  | some x => cases as.mapM f <;> rfl

theorem mapM_perm {as bs : List α} (h : as.Perm bs) :
    Option.Rel List.Perm (as.mapM f) (bs.mapM f) := by
  induction h with
  | nil => exact .some .nil
  | cons a _ ih =>
    rw [mapM_cons_eq, mapM_cons_eq]
    cases f a with
    | none => exact .none
    | some x => exact rel_map ih fun _ _ _ h => h.cons x
  | swap a b as =>
    simp only [List.mapM_cons]
    cases f a with
    | none => cases f b <;> exact .none
    | some x =>
      cases f b with
      | none => exact .none
      | some y =>
        cases as.mapM f with
        | none => exact .none
        | some xs => exact .some (.swap x y xs)
  | @trans as bs cs _ _ ih ih' =>
    generalize as.mapM f = xs, bs.mapM f = ys, cs.mapM f = zs at ih ih'
    cases ih with
    | none => exact ih'
    | some h =>
      cases ih' with
      | some h' => exact .some (h.trans h')

theorem forall₂_of_mapM {as : List α} {bs : List β} (h : as.mapM f = some bs) :
    List.Forall₂ (fun a b => f a = some b) as bs := by
  induction as generalizing bs with
  | nil =>
    cases h
    exact .nil
  | cons a as ih =>
    rw [List.mapM_cons] at h
    obtain ⟨b, hb, h⟩ := Option.bind_eq_some_iff.mp h
    obtain ⟨bs, hbs, h⟩ := Option.bind_eq_some_iff.mp h
    cases h
    exact .cons hb (ih hbs)

theorem map_eq_of_mapM {g : α → β} (hfg : ∀ a b, f a = some b → g a = b) {as : List α}
    {bs : List β} (h : as.mapM f = some bs) : as.map g = bs := by
  have hall := (forall₂_of_mapM h).imp hfg
  rw [← List.forall₂_eq_eq_eq, List.forall₂_map_left_iff]
  exact hall

theorem mapM_append_cons (as bs : List α) (a : α) :
    (as ++ a :: bs).mapM f = (as.mapM f).bind fun xs => (f a).bind fun x =>
      (bs.mapM f).map fun ys => xs ++ x :: ys := by
  rw [List.mapM_append, mapM_cons_eq]
  cases as.mapM f with
  | none => rfl
  | some xs =>
    cases f a with
    | none => rfl
    | some x => cases bs.mapM f <;> rfl

/-- A part is replaced among others that stay. -/
theorem mapM_replace {r : β → β → Prop} (as bs : List α) {a a' : α}
    (h : Option.Rel r (f a) (f a')) :
    Option.Rel (fun xs ys => ∃ before x y after, xs = before ++ x :: after ∧
        ys = before ++ y :: after ∧ before.length = as.length ∧ r x y)
      ((as ++ a :: bs).mapM f) ((as ++ a' :: bs).mapM f) := by
  rw [mapM_append_cons, mapM_append_cons]
  match has : as.mapM f with
  | none => exact .none
  | some before =>
    have hlength : before.length = as.length := (forall₂_of_mapM has).length_eq.symm
    generalize f a = o, f a' = o' at h
    cases h with
    | none => exact .none
    | @some x y h =>
      exact rel_map_self (bs.mapM f) fun after => ⟨before, x, y, after, rfl, rfl, hlength, h⟩

/-- A part is added among others that stay. -/
theorem mapM_insert (as bs : List α) {a : α} {x : β} (h : f a = some x) :
    Option.Rel (fun xs ys => ∃ before after, xs = before ++ after ∧ ys = before ++ x :: after)
      ((as ++ bs).mapM f) ((as ++ a :: bs).mapM f) := by
  rw [List.mapM_append, mapM_append_cons, h]
  cases as.mapM f with
  | none => exact .none
  | some before =>
    cases bs.mapM f with
    | none => exact .none
    | some after => exact .some ⟨before, after, rfl, rfl⟩

end Parts

namespace RawJson

theorem outlineAll_eq (ds : List RawJson) : outlineAll ds = ds.map outline := by
  induction ds with
  | nil => rfl
  | cons d ds ih => rw [outlineAll, ih, List.map_cons]

theorem outlineMembers_eq (ms : List (Option String × RawJson)) :
    outlineMembers ms = ms.map fun m => (m.1.getD "", outline m.2) := by
  induction ms with
  | nil => rfl
  | cons m ms ih => rw [outlineMembers, ih, List.map_cons]

theorem readMember?_eq_some {read : String → RawJson → Option Json}
    {m : Option String × RawJson} {member : String × Json} (h : readMember? read m = some member) :
    m.1 = some member.1 ∧ read member.1 m.2 = some member.2 := by
  obtain ⟨k, hk, h⟩ := Option.bind_eq_some_iff.mp h
  obtain ⟨v, hv, rfl⟩ := Option.map_eq_some_iff.mp h
  exact ⟨hk, hv⟩

/-- A document that has a value is outlined by it. -/
theorem outline_of_read? {depth : Nat} {d : RawJson} {v : Json} (h : d.read? depth = some v) :
    d.outline = v := by
  induction depth generalizing d v with
  | zero =>
    cases d with
    | scalar value =>
      rw [read?] at h
      rw [outline, h, Option.getD_some]
    | arr items | obj members => cases h
  | succ depth ih =>
    cases d with
    | scalar value =>
      rw [read?] at h
      rw [outline, h, Option.getD_some]
    | arr items =>
      obtain ⟨vs, hvs, rfl⟩ := Option.map_eq_some_iff.mp h
      rw [outline, outlineAll_eq, map_eq_of_mapM (fun _ _ h => ih h) hvs]
    | obj members =>
      obtain ⟨ms, hms, rfl⟩ := Option.map_eq_some_iff.mp h
      have hmember : ∀ m member, readMember? (fun _ => read? depth) m = some member →
          (m.1.getD "", outline m.2) = member := by
        intro m member h
        obtain ⟨hk, hv⟩ := readMember?_eq_some h
        rw [hk, ih hv, Option.getD_some]
      rw [outline, outlineMembers_eq, map_eq_of_mapM hmember hms]

theorem outline_arr {depth : Nat} {items : List RawJson} {vs : List Json}
    (h : items.mapM (read? depth) = some vs) : outline (.arr items) = .arr vs := by
  have hread : (RawJson.arr items).read? (depth + 1) = some (.arr vs) := by
    rw [read?, h, Option.map_some]
  exact outline_of_read? hread

theorem outline_obj {depth : Nat} {members : List (Option String × RawJson)}
    {ms : List (String × Json)} (h : members.mapM (readMember? fun _ => read? depth) = some ms) :
    outline (.obj members) = .obj ms := by
  have hread : (RawJson.obj members).read? (depth + 1) = some (.obj ms) := by
    rw [read?, h, Option.map_some]
  exact outline_of_read? hread

/-! ## Edits are not seen -/

section Members

variable {read : String → RawJson → Option Json} {p : Place}
  {before after : List (Option String × RawJson)}

theorem members_permute {ms ms' : List (Option String × RawJson)} (h : ms.Perm ms') :
    Option.Rel (Agree p) ((ms.mapM (readMember? read)).map .obj)
      ((ms'.mapM (readMember? read)).map .obj) :=
  rel_map (mapM_perm h) fun _ _ _ h => agree_permute p h

theorem members_insert {role : Role} {key : String} {value : RawJson} {x : Json}
    (hkey : ∀ ms, (before ++ after).mapM (readMember? read) = some ms →
      key ∉ (role.layout (.obj ms)).keys)
    (hvalue : read key value = some x) :
    Option.Rel (Agree (.node role)) (((before ++ after).mapM (readMember? read)).map .obj)
      (((before ++ (some key, value) :: after).mapM (readMember? read)).map .obj) := by
  have hread : readMember? read (some key, value) = some (key, x) := by simp [readMember?, hvalue]
  refine rel_map (mapM_insert before after hread) fun ms ms' hms h => ?_
  obtain ⟨before, after, rfl, rfl⟩ := h
  exact agree_insert (hkey _ hms)

theorem members_member (q : Place) {key : Option String} {d d' : RawJson}
    (hplace : ∀ k ms, key = some k →
      (before ++ (key, d) :: after).mapM (readMember? read) = some ms → p.member (.obj ms) k = q)
    (h : ∀ k, key = some k → Option.Rel (Agree q) (read k d) (read k d')) :
    Option.Rel (Agree p) (((before ++ (key, d) :: after).mapM (readMember? read)).map .obj)
      (((before ++ (key, d') :: after).mapM (readMember? read)).map .obj) := by
  have hmember : Option.Rel (fun m m' => m.1 = m'.1 ∧ key = some m.1 ∧ Agree q m.2 m'.2)
      (readMember? read (key, d)) (readMember? read (key, d')) := by
    cases key with
    | none => exact .none
    | some k =>
      simp only [readMember?, Option.bind_some]
      exact rel_map (h k rfl) fun _ _ _ h => ⟨rfl, rfl, h⟩
  refine rel_map (mapM_replace before after hmember) fun ms ms' hms h => ?_
  obtain ⟨before, ⟨k, x⟩, ⟨k', y⟩, after, rfl, rfl, -, rfl, hk, hxy⟩ := h
  refine agree_member ?_
  rwa [hplace k _ hk hms]

end Members

theorem items_item {read : RawJson → Option Json} {p q : Place} {before after : List RawJson}
    {d d' : RawJson}
    (hplace : ∀ vs, (before ++ d :: after).mapM read = some vs → p.item (.arr vs) before.length = q)
    (h : Option.Rel (Agree q) (read d) (read d')) :
    Option.Rel (Agree p) (((before ++ d :: after).mapM read).map .arr)
      (((before ++ d' :: after).mapM read).map .arr) := by
  refine rel_map (mapM_replace before after h) fun vs ws hvs h => ?_
  obtain ⟨before', x, y, after, rfl, rfl, hlength, hxy⟩ := h
  refine agree_item ?_
  rwa [hlength, hplace _ hvs]

/-- After an edit a document is read as before, as far as the decoder can see. -/
theorem Edit.agree {p : Place} {depth : Nat} {d d' : RawJson} (h : Edit p depth d d') :
    Option.Rel (Agree p) (d.read? depth) (d'.read? depth) := by
  induction h with
  | @permute p depth ms ms' h =>
    cases depth with
    | zero => exact .none
    | succ depth => exact members_permute h
  | @insert role depth before after key value hkey hvalue =>
    cases depth with
    | zero => exact .none
    | succ depth =>
      obtain ⟨x, hx⟩ := Option.isSome_iff_exists.mp hvalue
      refine members_insert (fun ms hms => ?_) hx
      rwa [outline_obj hms] at hkey
  | @item p depth before after d d' h ih =>
    cases depth with
    | zero => exact .none
    | succ depth =>
      refine items_item (fun vs hvs => ?_) ih
      rw [outline_arr hvs]
  | @member p depth before after key d d' h ih =>
    cases depth with
    | zero => exact .none
    | succ depth =>
      refine members_member _ (fun k ms hk hms => ?_) fun _ _ => ih
      rw [outline_obj hms, hk, Option.getD_some]

/-- The same holds of a whole document, whose own members need not be kept. -/
theorem Edit.agree_keep? {kept : String → Bool} {depth : Nat} {d d' : RawJson}
    (h : Edit (.node .module) (depth + 1) d d') :
    Option.Rel (Agree (.node .module)) (d.keep? kept (depth + 1)) (d'.keep? kept (depth + 1)) := by
  cases h with
  | permute h => exact members_permute h
  | @insert _ _ before after key value hkey hvalue =>
    obtain ⟨x, hx⟩ : ∃ x, (if kept key then value.read? depth else some .null) = some x := by
      split
      · exact Option.isSome_iff_exists.mp hvalue
      · exact ⟨_, rfl⟩
    exact members_insert (fun _ _ => hkey) hx
  | item h => exact (Edit.item h).agree
  | @member _ _ before after key d d' h =>
    -- the fields of a module are the same whatever it holds
    refine members_member (placeUnder (Role.layout .module .null) (key.getD ""))
      (fun k _ hk _ => by rw [hk]; rfl) fun k _ => ?_
    split
    · exact h.agree
    · exact .some (Agree.refl _ _)

/-- The syntax tree of a document. -/
def tree? (d : RawJson) : Option SyntaxTree :=
  (d.keep? (· == "body") SyntaxTree.maxDepth).bind SyntaxTree.ofJson?

theorem IsText.parse? {d : RawJson} {text : String} (h : d.IsText text) :
    SyntaxTree.parse? text = d.tree? := by
  rw [SyntaxTree.parse?, SyntaxTree.maxDepth, h.parseKeeping?]
  rfl

theorem Edit.tree?_eq {d d' : RawJson} (h : Edit (.node .module) SyntaxTree.maxDepth d d') :
    d.tree? = d'.tree? := by
  have hrel : Option.Rel (Agree (.node .module)) (d.keep? (· == "body") SyntaxTree.maxDepth)
      (d'.keep? (· == "body") SyntaxTree.maxDepth) := h.agree_keep?
  exact bind_eq_of_rel hrel fun _ _ h => h.2

theorem tree?_of_edits {d d' : RawJson}
    (h : Relation.ReflTransGen (Edit (.node .module) SyntaxTree.maxDepth) d d') :
    d.tree? = d'.tree? := by
  induction h with
  | refl => rfl
  | tail _ hedit ih => exact ih.trans hedit.tree?_eq

end RawJson

open RawJson

/-- Documents that edits lead between are loaded as one tree or both refused, however each of them
is spelled. -/
theorem SyntaxTree.ofText_of_edits {d d' : RawJson} {text text' : String} (htext : d.IsText text)
    (htext' : d'.IsText text')
    (h : Relation.ReflTransGen (Edit (.node .module) maxDepth) d d') :
    (∃ tree, ofText text = .ok tree ∧ ofText text' = .ok tree) ∨
      (ofText text = .error (.invalidTree "<string>") ∧
        ofText text' = .error (.invalidTree "<string>")) := by
  have hparse : parse? text' = parse? text := by
    rw [htext.parse?, htext'.parse?, tree?_of_edits h]
  match hp : parse? text with
  | some tree => exact .inl ⟨tree, by simp [ofText, hp], by simp [ofText, hparse, hp]⟩
  | none => exact .inr ⟨by simp [ofText, hp], by simp [ofText, hparse, hp]⟩

/-- A document whose body is one import, with the members before and behind the names that it
imports, and those behind the body. -/
def importDocument (before after others : List (String × Json)) : RawJson :=
  ofJson (.obj
    (("body", .arr [.obj (before ++ ("names", .arr [.arr [.str "os"]]) :: after)]) :: others))

def importText : String :=
  "\x7b\"body\": [\x7b\"kind\": \"import\", \"names\": [[\"os\"]]\x7d]\x7d"

/-- The same import after three edits. -/
def editedImportText : String :=
  "\x7b\"body\":[\x7b\"names\":[[\"os\"]],\"line\":1,\"kind\":\"import\"\x7d],\"v\":[]\x7d"

theorem SyntaxTree.ofText_of_edits_import :
    ∃ tree, ofText importText = .ok tree ∧ ofText editedImportText = .ok tree := by
  have htext : (importDocument [("kind", .str "import")] [] []).IsText importText :=
    isText_of_parse? 5 rfl
  have htext' : (importDocument [] [("line", .int 1), ("kind", .str "import")]
      [("v", .arr [])]).IsText editedImportText :=
    isText_of_parse? 5 rfl
  have hkind : Edit (.node .module) maxDepth (importDocument [("kind", .str "import")] [] [])
      (importDocument [] [("kind", .str "import")] []) :=
    @Edit.member _ _ [] [] _ _ _ (@Edit.item _ _ [] [] _ _ (.permute (.swap ..)))
  have hline : Edit (.node .module) maxDepth (importDocument [] [("kind", .str "import")] [])
      (importDocument [] [("line", .int 1), ("kind", .str "import")] []) :=
    @Edit.member _ _ [] [] _ _ _ (@Edit.item _ _ [] [] _ _
      (@Edit.insert (.statement false) _ [(some "names", _)] [_] "line" _ (by decide) rfl))
  have hversion : Edit (.node .module) maxDepth
      (importDocument [] [("line", .int 1), ("kind", .str "import")] [])
      (importDocument [] [("line", .int 1), ("kind", .str "import")] [("v", .arr [])]) :=
    @Edit.insert _ _ [_] [] "v" _ (by decide) rfl
  have htree : (importDocument [("kind", .str "import")] [] []).tree? =
      some ⟨[.importModules [⟨"os", none⟩]]⟩ := rfl
  have hedits := ((Relation.ReflTransGen.single hkind).tail hline).tail hversion
  rcases ofText_of_edits htext htext' hedits with h | ⟨h, -⟩
  · exact h
  · rw [ofText, htext.parse?, htree] at h
    cases h

end CallSchema
