import Mathlib.Data.List.Sort
import Mathlib.Data.String.Basic
import SchemaCompiler.Json.Reader
import SchemaCompiler.Proofs.Interpreter
import SchemaCompiler.Proofs.Replacements

/-!
# Deep equality

Two values are deeply equal if they become the same once every number is replaced by what
comparisons look at. So deep equality is an equivalence relation, and replacing a part of a value by
an equal one leaves an equal value. Two objects whose keys stand in order are equal exactly if they
have equally many fields and every field of the one is found in the other, with an equal value. So
where keys stand in order at every depth, deep equality is the walk that counts the fields and looks
each of them up. They do in all that is read from a text.
-/

namespace SchemaCompiler

namespace Json

mutual

/-- The value with an integer in the place of every number. -/
def measured (measure : Number → Int) : Json → Json
  | .null => .null
  | .bool b => .bool b
  | .num n => .num (.int (measure n))
  | .str s => .str s
  | .arr items => .arr (measuredItems measure items)
  | .obj fields => .obj (measuredFields measure fields)
termination_by structural v => v

def measuredItems (measure : Number → Int) : List Json → List Json
  | [] => []
  | v :: rest => v.measured measure :: measuredItems measure rest
termination_by structural items => items

def measuredFields (measure : Number → Int) : List (String × Json) → List (String × Json)
  | [] => []
  | (key, v) :: rest => (key, v.measured measure) :: measuredFields measure rest
termination_by structural fields => fields

end

variable {measure : Number → Int}

mutual

/-- Equality that compares numbers by a measure looks at the measured values only. -/
theorem equalBy_iff : (a b : Json) →
    (equalBy (fun m n => measure m == measure n) a b = true ↔
      a.measured measure = b.measured measure)
  | .null, b => by cases b <;> simp [equalBy, measured]
  | .bool _, b => by cases b <;> simp [equalBy, measured]
  | .num _, b => by cases b <;> simp [equalBy, measured]
  | .str _, b => by cases b <;> simp [equalBy, measured]
  | .arr xs, b => by
    cases b with
    | arr ys => simpa [equalBy, measured] using equalItemsBy_iff xs ys
    | _ => simp [equalBy, measured]
  | .obj xs, b => by
    cases b with
    | obj ys => simpa [equalBy, measured] using equalFieldsBy_iff xs ys
    | _ => simp [equalBy, measured]
termination_by structural a => a

theorem equalItemsBy_iff : (xs ys : List Json) →
    (equalItemsBy (fun m n => measure m == measure n) xs ys = true ↔
      measuredItems measure xs = measuredItems measure ys)
  | [], ys => by cases ys <;> simp [equalItemsBy, measuredItems]
  | x :: xs, ys => by
    cases ys with
    | nil => simp [equalItemsBy, measuredItems]
    | cons y ys => simp [equalItemsBy, measuredItems, equalBy_iff x y, equalItemsBy_iff xs ys]
termination_by structural xs => xs

theorem equalFieldsBy_iff : (xs ys : List (String × Json)) →
    (equalFieldsBy (fun m n => measure m == measure n) xs ys = true ↔
      measuredFields measure xs = measuredFields measure ys)
  | [], ys => by cases ys <;> simp [equalFieldsBy, measuredFields]
  | (k, x) :: xs, ys => by
    cases ys with
    | nil => simp [equalFieldsBy, measuredFields]
    | cons field ys =>
      obtain ⟨l, y⟩ := field
      simp [equalFieldsBy, measuredFields, equalBy_iff x y, equalFieldsBy_iff xs ys]
termination_by structural xs => xs

end

theorem equal_iff (a b : Json) :
    a.equal b = true ↔ a.measured Number.value = b.measured Number.value := equalBy_iff a b

theorem measuredItems_eq_map (items : List Json) :
    measuredItems measure items = items.map (measured measure) := by
  induction items with
  | nil => rfl
  | cons v rest ih => rw [measuredItems, ih, List.map_cons]

theorem measuredFields_eq_map (fields : List (String × Json)) :
    measuredFields measure fields =
      fields.map fun field => (field.1, field.2.measured measure) := by
  induction fields with
  | nil => rfl
  | cons field rest ih => rw [measuredFields, ih, List.map_cons]

/-! ## Replacing a part by an equal one -/

theorem Patch.measured_eq {old new v w : Json} {segment : Segment}
    (h : Patch old new segment v w) (heq : old.measured measure = new.measured measure) :
    v.measured measure = w.measured measure := by
  cases h with
  | field before after hfirst => simp [measured, measuredFields_eq_map, heq]
  | item before after => simp [measured, measuredItems_eq_map, heq]

theorem exists_replaceItem {f : Json → Option Json} {i : Nat} {items : List Json} {v w : Json}
    (hv : items[i]? = some v) (hw : f v = some w) :
    ∃ replaced, replaceItem f i items = some replaced := by
  induction items generalizing i with
  | nil => cases hv
  | cons u rest ih =>
    cases i with
    | zero =>
      obtain rfl : u = v := by simpa using hv
      exact ⟨w :: rest, by simp [replaceItem, hw]⟩
    | succ i =>
      obtain ⟨replaced, hreplaced⟩ := ih (by simpa using hv)
      exact ⟨u :: replaced, by simp [replaceItem, hreplaced]⟩

end Json

namespace Path

theorem exists_replace? {path : Path} {root old : Json} (h : resolve root path = some old)
    (new : Json) : ∃ replaced, replace? new path root = some replaced := by
  induction path generalizing root with
  | nil => exact ⟨new, rfl⟩
  | cons segment rest ih =>
    rw [resolve, Option.bind_eq_some_iff] at h
    obtain ⟨child, hchild, hrest⟩ := h
    obtain ⟨child', hchild'⟩ := ih hrest
    cases segment with
    | key name =>
      cases root with
      | obj fields =>
        obtain ⟨replaced, hreplaced, -⟩ := Json.lookup_replaceField hchild hchild'
        exact ⟨.obj replaced, by rw [replace?, hreplaced]; rfl⟩
      | _ => cases hchild
    | index i =>
      cases root with
      | arr items =>
        obtain ⟨replaced, hreplaced⟩ := Json.exists_replaceItem hchild hchild'
        exact ⟨.arr replaced, by rw [replace?, hreplaced]; rfl⟩
      | _ => cases hchild

/-- A value keeps its measure when a part of it is replaced by one of the same measure. -/
theorem measured_replace? {measure : Number → Int} {path : Path} {root replaced old new : Json}
    (hold : resolve root path = some old) (hreplace : replace? new path root = some replaced)
    (heq : old.measured measure = new.measured measure) :
    root.measured measure = replaced.measured measure := by
  induction path generalizing root replaced with
  | nil =>
    cases hold
    cases hreplace
    exact heq
  | cons segment rest ih =>
    obtain ⟨child, child', hrest, hpatch⟩ := of_replace?_cons hreplace
    rw [resolve, hpatch.get_old] at hold
    exact hpatch.measured_eq (ih hold hrest)

end Path

namespace Json

/-! ## Objects with keys in order -/

def KeysAscend (fields : List (String × Json)) : Prop :=
  (fields.map Prod.fst).Pairwise (· < ·)

theorem lookup_measuredFields {measure : Number → Int} (key : String)
    (fields : List (String × Json)) :
    lookup key (measuredFields measure fields) = (lookup key fields).map (measured measure) := by
  induction fields with
  | nil => rfl
  | cons field rest ih =>
    obtain ⟨k, v⟩ := field
    rw [measuredFields, lookup, lookup]
    split
    · rfl
    · exact ih

theorem keys_measuredFields {measure : Number → Int} (fields : List (String × Json)) :
    (measuredFields measure fields).map Prod.fst = fields.map Prod.fst := by
  rw [measuredFields_eq_map, List.map_map]
  rfl

theorem exists_lookup {key : String} {fields : List (String × Json)}
    (h : key ∈ fields.map Prod.fst) : ∃ v, lookup key fields = some v := by
  induction fields with
  | nil => cases h
  | cons field rest ih =>
    obtain ⟨k, v⟩ := field
    rw [lookup]
    by_cases hk : k = key
    · exact ⟨v, if_pos hk⟩
    · rw [if_neg hk]
      exact ih ((List.mem_cons.mp h).resolve_left (Ne.symm hk))

/-- Fields are determined by their keys in order and by what is found under each of them. -/
theorem fields_ext {xs ys : List (String × Json)} (hnodup : (xs.map Prod.fst).Nodup)
    (hkeys : xs.map Prod.fst = ys.map Prod.fst)
    (h : ∀ key ∈ xs.map Prod.fst, lookup key xs = lookup key ys) : xs = ys := by
  refine List.ext_getElem (by simpa using congrArg List.length hkeys) fun i hx hy => ?_
  have hkey : xs[i].1 = ys[i].1 := by
    simpa [hx, hy] using congrArg (fun keys => keys[i]?) hkeys
  have hxs : lookup xs[i].1 xs = some xs[i].2 := lookup_of_mem hnodup (List.getElem_mem hx)
  have hys : lookup ys[i].1 ys = some ys[i].2 :=
    lookup_of_mem (hkeys ▸ hnodup) (List.getElem_mem hy)
  have hsame := h xs[i].1 (List.mem_map_of_mem (List.getElem_mem hx))
  rw [hxs, hkey, hys] at hsame
  exact Prod.ext hkey (Option.some.inj hsame)

/-- Equally many keys in order, each found among the others, are the same keys. -/
theorem keys_eq_of_found {xs ys : List (String × Json)} (hxs : KeysAscend xs) (hys : KeysAscend ys)
    (hlength : xs.length = ys.length) (hfound : xs.map Prod.fst ⊆ ys.map Prod.fst) :
    xs.map Prod.fst = ys.map Prod.fst := by
  have hsublist := List.sublist_of_subperm_of_pairwise
    (List.subperm_of_subset hxs.nodup hfound) hxs hys
  exact hsublist.eq_of_length (by simpa using hlength)

/-- Objects with keys in order are equal if the fields of the one are found in the other, which has
no more of them. -/
theorem equal_obj_iff {xs ys : List (String × Json)} (hxs : KeysAscend xs) (hys : KeysAscend ys) :
    (obj xs).equal (obj ys) = true ↔
      xs.length = ys.length ∧
        ∀ key x, lookup key xs = some x → ∃ y, lookup key ys = some y ∧ x.equal y = true := by
  rw [equal_iff, measured, measured, obj.injEq]
  constructor
  · intro heq
    refine ⟨by simpa [measuredFields_eq_map] using congrArg List.length heq, fun key x hx => ?_⟩
    have hlookup := congrArg (lookup key) heq
    rw [lookup_measuredFields, lookup_measuredFields, hx, Option.map_some, eq_comm,
      Option.map_eq_some_iff] at hlookup
    obtain ⟨y, hy, hmeasured⟩ := hlookup
    exact ⟨y, hy, (equal_iff x y).mpr hmeasured.symm⟩
  · rintro ⟨hlength, hfound⟩
    have hsub : xs.map Prod.fst ⊆ ys.map Prod.fst := by
      intro key hkey
      obtain ⟨x, hx⟩ := exists_lookup hkey
      obtain ⟨y, hy, -⟩ := hfound key x hx
      exact List.mem_map_of_mem (mem_of_lookup hy)
    have hkeys := keys_eq_of_found hxs hys hlength hsub
    refine fields_ext ?_ ?_ fun key hkey => ?_
    · rw [keys_measuredFields]
      exact hxs.nodup
    · rw [keys_measuredFields, keys_measuredFields, hkeys]
    · rw [keys_measuredFields] at hkey
      obtain ⟨x, hx⟩ := exists_lookup hkey
      obtain ⟨y, hy, hxy⟩ := hfound key x hx
      rw [lookup_measuredFields, lookup_measuredFields, hx, hy, Option.map_some, Option.map_some,
        (equal_iff x y).mp hxy]

/-! ## Looking fields up at every depth -/

mutual

/-- Deep equality that looks every field of the one object up in the other, which has as many. -/
def lookupEqualBy (eqv : Number → Number → Bool) : Json → Json → Bool
  | .null, .null => true
  | .bool a, .bool b => a == b
  | .num a, .num b => eqv a b
  | .str a, .str b => a == b
  | .arr xs, .arr ys => xs.length == ys.length && lookupEqualItemsBy eqv xs ys
  | .obj xs, .obj ys => xs.length == ys.length && lookupEqualFieldsBy eqv xs ys
  | _, _ => false
termination_by structural v => v

def lookupEqualItemsBy (eqv : Number → Number → Bool) : List Json → List Json → Bool
  | x :: xs, y :: ys => lookupEqualBy eqv x y && lookupEqualItemsBy eqv xs ys
  | _, _ => true
termination_by structural xs => xs

def lookupEqualFieldsBy (eqv : Number → Number → Bool) :
    List (String × Json) → List (String × Json) → Bool
  | [], _ => true
  | (key, x) :: xs, ys =>
    ((lookup key ys).any fun y => lookupEqualBy eqv x y) && lookupEqualFieldsBy eqv xs ys
termination_by structural xs => xs

end

def lookupEqual : Json → Json → Bool := lookupEqualBy fun a b => a.value == b.value

mutual

def Ordered : Json → Prop
  | .arr items => itemsOrdered items
  | .obj fields => KeysAscend fields ∧ fieldsOrdered fields
  | _ => True
termination_by structural v => v

def itemsOrdered : List Json → Prop
  | [] => True
  | v :: rest => v.Ordered ∧ itemsOrdered rest
termination_by structural items => items

def fieldsOrdered : List (String × Json) → Prop
  | [] => True
  | (_, v) :: rest => v.Ordered ∧ fieldsOrdered rest
termination_by structural fields => fields

end

section Lookups

variable {eqv : Number → Number → Bool} {xs ys : List (String × Json)}

theorem keys_eq_of_equalFieldsBy (h : equalFieldsBy eqv xs ys = true) :
    xs.map Prod.fst = ys.map Prod.fst := by
  induction xs generalizing ys with
  | nil =>
    cases ys with
    | nil => rfl
    | cons field ys => cases h
  | cons field xs ih =>
    cases ys with
    | nil => cases h
    | cons other ys =>
      obtain ⟨k, x⟩ := field
      obtain ⟨l, y⟩ := other
      simp only [equalFieldsBy, Bool.and_eq_true, beq_iff_eq] at h
      simp [h.1.1, ih h.2]

theorem keys_subset_of_lookupEqualFieldsBy (h : lookupEqualFieldsBy eqv xs ys = true) :
    xs.map Prod.fst ⊆ ys.map Prod.fst := by
  induction xs with
  | nil => exact List.nil_subset _
  | cons field xs ih =>
    obtain ⟨key, x⟩ := field
    simp only [lookupEqualFieldsBy, Bool.and_eq_true, Option.any_eq_true] at h
    obtain ⟨⟨y, hy, -⟩, hrest⟩ := h
    exact List.cons_subset.mpr ⟨List.mem_map.mpr ⟨_, mem_of_lookup hy, rfl⟩, ih hrest⟩

/-- A field that none of the keys asks for may be left out. -/
theorem lookupEqualFieldsBy_cons {key : String} (y : Json) (h : key ∉ xs.map Prod.fst) :
    lookupEqualFieldsBy eqv xs ((key, y) :: ys) = lookupEqualFieldsBy eqv xs ys := by
  induction xs with
  | nil => rfl
  | cons field xs ih =>
    obtain ⟨k, x⟩ := field
    obtain ⟨hne, hrest⟩ := not_or.mp (mt List.mem_cons.mpr h)
    rw [lookupEqualFieldsBy, lookupEqualFieldsBy, ih hrest, lookup, if_neg hne]

/-- With other keys on the one side than on the other, neither walk finds the fields equal. -/
theorem equalFieldsBy_of_keys_ne (hxs : KeysAscend xs) (hys : KeysAscend ys)
    (hne : xs.map Prod.fst ≠ ys.map Prod.fst) :
    equalFieldsBy eqv xs ys = (xs.length == ys.length && lookupEqualFieldsBy eqv xs ys) := by
  have hparallel : equalFieldsBy eqv xs ys = false :=
    Bool.eq_false_iff.mpr fun h => hne (keys_eq_of_equalFieldsBy h)
  rw [hparallel, eq_comm, Bool.and_eq_false_iff]
  by_cases hlength : xs.length = ys.length
  · refine .inr (Bool.eq_false_iff.mpr fun h => hne ?_)
    exact keys_eq_of_found hxs hys hlength (keys_subset_of_lookupEqualFieldsBy h)
  · exact .inl (by simpa using hlength)

end Lookups

mutual

/-- Where keys stand in order, looking fields up finds what the parallel walk finds. -/
theorem equalBy_eq_lookupEqualBy (eqv : Number → Number → Bool) : (a b : Json) → a.Ordered →
    b.Ordered → equalBy eqv a b = lookupEqualBy eqv a b
  | .null, b, _, _ => by cases b <;> rfl
  | .bool _, b, _, _ => by cases b <;> rfl
  | .num _, b, _, _ => by cases b <;> rfl
  | .str _, b, _, _ => by cases b <;> rfl
  | .arr xs, b, ha, hb => by
    cases b with
    | arr ys => exact equalItemsBy_eq eqv xs ys ha hb
    | _ => rfl
  | .obj xs, b, ha, hb => by
    cases b with
    | obj ys =>
      obtain ⟨hxs, hleft⟩ := ha
      obtain ⟨hys, hright⟩ := hb
      rw [equalBy, lookupEqualBy]
      by_cases hkeys : xs.map Prod.fst = ys.map Prod.fst
      · have hlength : xs.length = ys.length := by simpa using congrArg List.length hkeys
        rw [equalFieldsBy_eq eqv xs ys hleft hright hxs.nodup hkeys, hlength, beq_self_eq_true,
          Bool.true_and]
      · exact equalFieldsBy_of_keys_ne hxs hys hkeys
    | _ => rfl
termination_by structural a => a

theorem equalItemsBy_eq (eqv : Number → Number → Bool) : (xs ys : List Json) → itemsOrdered xs →
    itemsOrdered ys →
    equalItemsBy eqv xs ys = (xs.length == ys.length && lookupEqualItemsBy eqv xs ys)
  | [], ys, _, _ => by cases ys <;> rfl
  | x :: xs, ys, hxs, hys => by
    cases ys with
    | nil => rfl
    | cons y ys =>
      rw [equalItemsBy, lookupEqualItemsBy, equalBy_eq_lookupEqualBy eqv x y hxs.1 hys.1,
        equalItemsBy_eq eqv xs ys hxs.2 hys.2, Bool.and_left_comm]
      simp
termination_by structural xs => xs

/-- Under the same keys, each look-up finds the field opposite. -/
theorem equalFieldsBy_eq (eqv : Number → Number → Bool) : (xs ys : List (String × Json)) →
    fieldsOrdered xs → fieldsOrdered ys → (xs.map Prod.fst).Nodup →
    xs.map Prod.fst = ys.map Prod.fst → equalFieldsBy eqv xs ys = lookupEqualFieldsBy eqv xs ys
  | [], ys, _, _, _, hkeys => by
    obtain rfl : ys = [] := by simpa using hkeys
    rfl
  | (k, x) :: xs, ys, hxs, hys, hnodup, hkeys => by
    cases ys with
    | nil => cases hkeys
    | cons other ys =>
      obtain ⟨l, y⟩ := other
      obtain ⟨hkey, hrest⟩ := List.cons.inj hkeys
      obtain rfl : k = l := hkey
      obtain ⟨hnew, hnodup⟩ := List.nodup_cons.mp hnodup
      rw [equalFieldsBy, lookupEqualFieldsBy, lookupEqualFieldsBy_cons y hnew,
        equalBy_eq_lookupEqualBy eqv x y hxs.1 hys.1,
        equalFieldsBy_eq eqv xs ys hxs.2 hys.2 hnodup hrest, lookup, if_pos rfl, beq_self_eq_true]
      rfl
termination_by structural xs => xs

end

/-- Deep equality is an equivalence relation. Replacing what stands at a location by an equal value
leaves an equal value. On objects with keys in order it asks for equally many fields and finds each
field of the one in the other, and where keys stand in order at every depth it is the walk that does
so at every depth. -/
theorem equal_equivalence :
    Equivalence (fun a b : Json => a.equal b = true) ∧
      (∀ (path : Path) (root old new : Json), path.resolve root = some old →
        old.equal new = true →
        ∃ replaced, path.replace? new root = some replaced ∧ root.equal replaced = true) ∧
      (∀ xs ys, KeysAscend xs → KeysAscend ys →
        ((obj xs).equal (obj ys) = true ↔ xs.length = ys.length ∧
          ∀ key x, lookup key xs = some x → ∃ y, lookup key ys = some y ∧ x.equal y = true)) ∧
      ∀ a b : Json, a.Ordered → b.Ordered → a.equal b = a.lookupEqual b := by
  refine ⟨⟨fun a => ?_, fun {a b} hab => ?_, fun {a b c} hab hbc => ?_⟩,
    fun path root old new hold heq => ?_, fun xs ys => equal_obj_iff, equalBy_eq_lookupEqualBy _⟩
  · exact (equal_iff a a).mpr rfl
  · exact (equal_iff b a).mpr ((equal_iff a b).mp hab).symm
  · exact (equal_iff a c).mpr (((equal_iff a b).mp hab).trans ((equal_iff b c).mp hbc))
  · obtain ⟨replaced, hreplaced⟩ := Path.exists_replace? hold new
    exact ⟨replaced, hreplaced, (equal_iff root replaced).mpr
      (Path.measured_replace? hold hreplaced ((equal_iff old new).mp heq))⟩

/-- An integer inside a value may be replaced by the double of the same value. -/
theorem equal_equivalence_nested :
    ∃ replaced, Path.replace? (num (.double ⟨false, Double.one⟩)) [.key "k", .index 0]
        (obj [("k", arr [num (.int 1)])]) = some replaced ∧
      (obj [("k", arr [num (.int 1)])]).equal replaced = true :=
  equal_equivalence.2.1 _ _ (num (.int 1)) _ rfl (by decide +kernel)

/-! ## Values read from a text -/

theorem mem_keys_insert {key k : String} {value : Json} {fields : List (String × Json)}
    (h : k ∈ (insert key value fields).map Prod.fst) : k = key ∨ k ∈ fields.map Prod.fst := by
  induction fields with
  | nil => exact .inl (by simpa [insert] using h)
  | cons field rest ih =>
    obtain ⟨l, v⟩ := field
    rw [insert] at h
    split at h
    next heq => exact .inr (by simpa [heq] using h)
    next =>
      split at h
      · exact List.mem_cons.mp h
      · rcases List.mem_cons.mp h with rfl | hrest
        · exact .inr List.mem_cons_self
        · exact (ih hrest).imp_right (List.mem_cons_of_mem _)

theorem KeysAscend.insert {fields : List (String × Json)} (h : KeysAscend fields) (key : String)
    (value : Json) : KeysAscend (Json.insert key value fields) := by
  induction fields with
  | nil => exact List.pairwise_singleton _ _
  | cons field rest ih =>
    obtain ⟨k, v⟩ := field
    obtain ⟨hfirst, hrest⟩ := List.pairwise_cons.mp h
    rw [Json.insert]
    split
    next heq =>
      subst heq
      exact h
    next hne =>
      split
      next hlt =>
        refine List.pairwise_cons.mpr ⟨fun l hl => ?_, h⟩
        rcases List.mem_cons.mp hl with rfl | hl
        · exact hlt
        · exact hlt.trans (hfirst l hl)
      next hle =>
        refine List.pairwise_cons.mpr ⟨fun l hl => ?_, ih hrest⟩
        rcases mem_keys_insert hl with rfl | hl
        · exact lt_of_le_of_ne (not_lt.mp hle) (Ne.symm hne)
        · exact hfirst l hl

theorem fieldsOrdered.insert {fields : List (String × Json)} (h : fieldsOrdered fields)
    (key : String) {value : Json} (hvalue : value.Ordered) :
    fieldsOrdered (Json.insert key value fields) := by
  induction fields with
  | nil => exact ⟨hvalue, trivial⟩
  | cons field rest ih =>
    rw [Json.insert]
    split
    · exact ⟨hvalue, h.2⟩
    · split
      · exact ⟨hvalue, h⟩
      · exact ⟨h.1, ih h.2⟩

namespace Reader

structure ReadsOrdered (fuel : Nat) : Prop where
  value : ∀ {cs v rest}, value fuel cs = some (v, rest) → v.Ordered
  items : ∀ {cs xs rest}, items fuel cs = some (xs, rest) → itemsOrdered xs
  fields : ∀ {acc cs xs rest}, fields fuel acc cs = some (xs, rest) → (obj acc).Ordered →
    (obj xs).Ordered

variable {fuel : Nat} {cs rest : List Char}

theorem ReadsOrdered.value_succ (ih : ReadsOrdered fuel) {v : Json}
    (h : Reader.value (fuel + 1) cs = some (v, rest)) : v.Ordered := by
  unfold Reader.value at h
  split at h
  · obtain ⟨_, -, heq⟩ := Option.map_eq_some_iff.mp h
    cases heq
    trivial
  · split at h
    · cases h
      trivial
    · obtain ⟨_, hitems, heq⟩ := Option.map_eq_some_iff.mp h
      cases heq
      exact ih.items hitems
  · split at h
    · cases h
      exact ⟨List.Pairwise.nil, trivial⟩
    · obtain ⟨_, hfields, heq⟩ := Option.map_eq_some_iff.mp h
      cases heq
      exact ih.fields hfields ⟨List.Pairwise.nil, trivial⟩
  all_goals
    obtain ⟨_, -, heq⟩ := Option.map_eq_some_iff.mp h
    cases heq
    trivial

theorem ReadsOrdered.items_succ (ih : ReadsOrdered fuel) {xs : List Json}
    (h : Reader.items (fuel + 1) cs = some (xs, rest)) : itemsOrdered xs := by
  unfold Reader.items at h
  split at h
  · cases h
  next x after hvalue =>
    split at h
    · obtain ⟨_, hitems, heq⟩ := Option.map_eq_some_iff.mp h
      cases heq
      exact ⟨ih.value hvalue, ih.items hitems⟩
    · cases h
      exact ⟨ih.value hvalue, trivial⟩
    · cases h

theorem ReadsOrdered.fields_succ (ih : ReadsOrdered fuel) {acc xs : List (String × Json)}
    (h : Reader.fields (fuel + 1) acc cs = some (xs, rest)) (hacc : (obj acc).Ordered) :
    (obj xs).Ordered := by
  unfold Reader.fields at h
  split at h
  · split at h
    · cases h
    next key after _ =>
      split at h
      · split at h
        · cases h
        next x after hvalue =>
          have hinsert : (obj (insert key x acc)).Ordered :=
            ⟨hacc.1.insert key x, hacc.2.insert key (ih.value hvalue)⟩
          split at h
          · exact ih.fields h hinsert
          · cases h
            exact hinsert
          · cases h
      · cases h
  · cases h

theorem readsOrdered (fuel : Nat) : ReadsOrdered fuel := by
  induction fuel with
  | zero => exact ⟨fun h => (by cases h), fun h => (by cases h), fun h => (by cases h)⟩
  | succ fuel ih => exact ⟨ih.value_succ, ih.items_succ, ih.fields_succ⟩

end Reader

mutual

/-- Keys that stand in order are distinct. -/
theorem Ordered.keysDistinct : {v : Json} → v.Ordered → v.KeysDistinct
  | .null, _ => trivial
  | .bool _, _ => trivial
  | .num _, _ => trivial
  | .str _, _ => trivial
  | .arr _, h => itemsKeysDistinct_of_ordered h
  | .obj _, h => ⟨h.1.nodup, fieldsKeysDistinct_of_ordered h.2⟩
termination_by structural v => v

theorem itemsKeysDistinct_of_ordered :
    {items : List Json} → itemsOrdered items → itemsKeysDistinct items
  | [], _ => trivial
  | _ :: _, h => ⟨h.1.keysDistinct, itemsKeysDistinct_of_ordered h.2⟩
termination_by structural items => items

theorem fieldsKeysDistinct_of_ordered :
    {fields : List (String × Json)} → fieldsOrdered fields → fieldsKeysDistinct fields
  | [], _ => trivial
  | (_, _) :: _, h => ⟨h.1.keysDistinct, fieldsKeysDistinct_of_ordered h.2⟩
termination_by structural fields => fields

end

/-- In all that is read from a text keys stand in order, so no object has two fields with one key. -/
theorem parse?_ordered {text : String} {v : Json} (h : parse? text = some v) :
    v.Ordered ∧ v.KeysDistinct := by
  have hordered : v.Ordered := by
    unfold parse? at h
    dsimp only at h
    split at h
    next v' rest hvalue =>
      split at h
      · cases h
        exact (Reader.readsOrdered _).value hvalue
      · cases h
    · cases h
  exact ⟨hordered, hordered.keysDistinct⟩

end Json

end SchemaCompiler
