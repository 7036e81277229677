import SchemaCompiler.Proofs.Meaning

/-!
# Locations of data

A data level is anchored in an instance when every level above it is an object that holds the
property leading down. Replacing the data keeps a level anchored, so that the properties entered
still lead to the data after a rule has written to it. In a frame the slots of an anchored level
hold the locations that the properties spell, and expressions over them read those values.
-/

namespace SchemaCompiler

open Run

namespace Json

theorem replaceField_congr {name : String} {f g : Json → Option Json}
    {fields : List (String × Json)} {v : Json} (hv : lookup name fields = some v)
    (hfg : f v = g v) : replaceField name f fields = replaceField name g fields := by
  induction fields with
  | nil => rfl
  | cons field rest ih =>
    obtain ⟨k, w⟩ := field
    rw [lookup] at hv
    rw [replaceField, replaceField]
    by_cases hk : k = name
    · obtain rfl : w = v := by simpa [hk] using hv
      simp [hk, hfg]
    · simp only [hk, if_false] at hv ⊢
      rw [ih hv]

theorem lookup_replaceField {name : String} {f : Json → Option Json}
    {fields : List (String × Json)} {v w : Json} (hv : lookup name fields = some v)
    (hw : f v = some w) :
    ∃ replaced, replaceField name f fields = some replaced ∧ lookup name replaced = some w := by
  induction fields with
  | nil => simp [lookup] at hv
  | cons field rest ih =>
    obtain ⟨k, u⟩ := field
    rw [lookup] at hv
    by_cases hk : k = name
    · obtain rfl : u = v := by simpa [hk] using hv
      exact ⟨(k, w) :: rest, by simp [replaceField, hk, hw], by simp [lookup, hk]⟩
    · simp only [hk, if_false] at hv
      obtain ⟨replaced, hr, hl⟩ := ih hv
      exact ⟨(k, u) :: replaced, by simp [replaceField, hk, hr], by simp [lookup, hk, hl]⟩

theorem replaceItem_congr {f g : Json → Option Json} {i : Nat} {items : List Json} {v : Json}
    (hv : items[i]? = some v) (hfg : f v = g v) : replaceItem f i items = replaceItem g i items := by
  induction items generalizing i with
  | nil => simp at hv
  | cons w rest ih =>
    cases i with
    | zero =>
      obtain rfl : w = v := by simpa using hv
      simp [replaceItem, hfg]
    | succ i =>
      rw [replaceItem, replaceItem, ih (by simpa using hv)]

@[simp] theorem child?_obj (name : String) (fields : List (String × Json)) :
    child? name (.obj fields) = lookup name fields := rfl

end Json

namespace Path

@[simp] theorem resolve_nil (v : Json) : resolve v [] = some v := rfl

theorem resolve_append (v : Json) (xs ys : Path) :
    resolve v (xs ++ ys) = (resolve v xs).bind fun w => resolve w ys := by
  induction xs generalizing v with
  | nil => rfl
  | cons x xs ih =>
    rw [List.cons_append, resolve, resolve, Option.bind_assoc]
    congr 1
    exact funext fun w => ih w

theorem resolve_snoc (v : Json) (xs : Path) (segment : Segment) :
    resolve v (xs ++ [segment]) = (resolve v xs).bind segment.get? := by
  rw [resolve_append]
  congr 1
  funext w
  rw [resolve]
  cases segment.get? w <;> rfl

/-- A replacement further down replaces the value in between by the value it leads to. -/
theorem replace?_append {root new w replaced : Json} {xs ys : Path}
    (hxs : resolve root xs = some w) (hys : replace? new ys w = some replaced) :
    replace? new (xs ++ ys) root = replace? replaced xs root := by
  induction xs generalizing root with
  | nil =>
    obtain rfl : root = w := by simpa using hxs
    rw [List.nil_append, hys, replace?]
  | cons x xs ih =>
    rw [resolve, Option.bind_eq_some_iff] at hxs
    obtain ⟨child, hchild, hrest⟩ := hxs
    have hstep : replace? new (xs ++ ys) child = replace? replaced xs child := ih hrest
    cases x with
    | key name =>
      cases root with
      | obj fields =>
        rw [List.cons_append, replace?, replace?,
          Json.replaceField_congr (f := replace? new (xs ++ ys)) hchild hstep]
      | _ => simp [Segment.get?] at hchild
    | index i =>
      cases root with
      | arr items =>
        rw [List.cons_append, replace?, replace?,
          Json.replaceItem_congr (f := replace? new (xs ++ ys)) hchild hstep]
      | _ => simp [Segment.get?] at hchild

end Path

namespace DataLevel

/-- Every level above is an object that holds the property leading down. -/
def Anchored : DataLevel → Json → Prop
  | .root, _ => True
  | .property parent _ name, v =>
    parent.Anchored v ∧
      ∃ fields, parent.value? v = some (.obj fields) ∧ (Json.lookup name fields).isSome

theorem value?_property (parent : DataLevel) (slot : Ident) (name : String) (root : Json) :
    (property parent slot name).value? root = (parent.value? root).bind (Segment.key name).get? :=
  Path.resolve_snoc ..

theorem Anchored.exists_value {here : DataLevel} {root : Json} (h : here.Anchored root) :
    ∃ v, here.value? root = some v := by
  cases here with
  | root => exact ⟨root, rfl⟩
  | property parent slot name =>
    obtain ⟨-, fields, hfields, hname⟩ := h
    obtain ⟨v, hv⟩ := Option.isSome_iff_exists.mp hname
    exact ⟨v, by rw [value?_property, hfields]; exact hv⟩

/-- Data can be replaced where it is anchored, and stays anchored. -/
theorem Anchored.replace {here : DataLevel} {root : Json} (h : here.Anchored root) (new : Json) :
    ∃ replaced, here.path.replace? new root = some replaced ∧ here.Anchored replaced ∧
      here.value? replaced = some new := by
  induction here generalizing new with
  | root => exact ⟨new, rfl, trivial, rfl⟩
  | property parent slot name ih =>
    obtain ⟨hparent, fields, hfields, hname⟩ := h
    obtain ⟨v, hv⟩ := Option.isSome_iff_exists.mp hname
    obtain ⟨fields', hreplace, hlookup⟩ :=
      Json.lookup_replaceField (f := fun _ => some new) (w := new) hv rfl
    -- the parent is replaced by the object with the new field
    obtain ⟨replaced, hroot, hanchored, hvalue⟩ := ih hparent (.obj fields')
    refine ⟨replaced, ?_, ⟨hanchored, fields', hvalue, by simp [hlookup]⟩, ?_⟩
    · have hfield : Path.replace? new [.key name] (.obj fields) = some (.obj fields') := by
        rw [Path.replace?, Json.replaceField_congr (g := fun _ => some new) hv rfl, hreplace]
        rfl
      rw [path, Path.replace?_append hfields hfield, hroot]
    · rw [value?_property, hvalue]
      exact hlookup

end DataLevel

/-- A replacement below the root is written if the data can be replaced. -/
theorem Run.State.replace_property {parent : DataLevel} {slot : Ident} {name keyword : String}
    {data replaced : Json} {st : State}
    (h : (DataLevel.property parent slot name).path.replace? data st.root = some replaced) :
    st.replace (.property parent slot name) keyword data = { st with root := replaced } := by
  simp only [State.replace, h]

end SchemaCompiler
