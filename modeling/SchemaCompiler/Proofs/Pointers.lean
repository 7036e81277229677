import SchemaCompiler.Json.Pointer

/-!
# Pointers made of keys

A pointer that is built key by key addresses what the keys lead to: escaping a key makes one
reference token of it, and reading the token gives the key back.
-/

namespace SchemaCompiler.Pointer

theorem unescapeChars_cons {c : Char} (hc : c ≠ '~') (cs : List Char) :
    unescapeChars (c :: cs) = c :: unescapeChars cs := by
  rw [unescapeChars.eq_def]
  split <;> simp_all

theorem unescapeChars_escapeChars (cs : List Char) : unescapeChars (escapeChars cs) = cs := by
  fun_induction escapeChars cs with
  | case1 => rfl
  | case2 rest ih => simp [unescapeChars, ih]
  | case3 rest ih => simp [unescapeChars, ih]
  | case4 c rest htilde hslash ih => rw [unescapeChars_cons htilde, ih]

theorem slash_not_mem_escapeChars (cs : List Char) : '/' ∉ escapeChars cs := by
  fun_induction escapeChars cs with
  | case1 => simp
  | case2 rest ih => simpa using ih
  | case3 rest ih => simpa using ih
  | case4 c rest htilde hslash ih => simpa [ih] using fun h : '/' = c => hslash h.symm

theorem splitChars_of_not_mem {sep : Char} {cs : List Char} (h : sep ∉ cs) :
    splitChars sep cs = [cs] := by
  induction cs with
  | nil => rfl
  | cons c cs ih =>
    simp only [List.mem_cons, not_or] at h
    rw [splitChars, if_neg (Ne.symm h.1), ih h.2]

theorem splitChars_ne_nil (sep : Char) (cs : List Char) : splitChars sep cs ≠ [] := by
  fun_induction splitChars sep cs <;> simp

/-- Splitting at a separator and on both sides of it. -/
theorem splitChars_append_sep (sep : Char) (xs ys : List Char) :
    splitChars sep (xs ++ sep :: ys) = splitChars sep xs ++ splitChars sep ys := by
  induction xs with
  | nil => simp [splitChars]
  | cons x xs ih =>
    rw [List.cons_append, splitChars, splitChars, ih]
    split
    · rfl
    · cases hsplit : splitChars sep xs with
      | nil => exact absurd hsplit (splitChars_ne_nil sep xs)
      | cons piece pieces => rfl

theorem walk_append (v : Json) (xs ys : List String) :
    walk v (xs ++ ys) = (walk v xs).bind fun child => walk child ys := by
  induction xs generalizing v with
  | nil => rfl
  | cons x xs ih =>
    rw [List.cons_append, walk, walk]
    cases step x v with
    | none => rfl
    | some child => exact ih child

theorem toList_child (base key : String) :
    (child base key).toList = base.toList ++ '/' :: escapeChars key.toList := by
  simp [child, escape]

def Rooted (pointer : String) : Prop := pointer = "" ∨ ∃ rest, pointer.toList = '/' :: rest

theorem Rooted.child {base : String} (h : Rooted base) (key : String) : Rooted (child base key) := by
  rcases h with rfl | ⟨rest, hrest⟩
  · exact .inr ⟨_, toList_child "" key⟩
  · exact .inr ⟨_, by rw [toList_child, hrest, List.cons_append]⟩

/-- A key added to a pointer makes one more step. -/
theorem resolve_child {base : String} (h : Rooted base) (key : String) (v : Json) :
    resolve (Pointer.child base key) v = (resolve base v).bind (step key) := by
  have hsplit := splitChars_of_not_mem (slash_not_mem_escapeChars key.toList)
  rcases h with rfl | ⟨rest, hrest⟩
  · simp [resolve, toList_child, hsplit, walk, unescapeChars_escapeChars]
  · have hlist : (Pointer.child base key).toList = '/' :: (rest ++ '/' :: escapeChars key.toList) := by
      rw [toList_child, hrest, List.cons_append]
    simp [resolve, hlist, hrest, splitChars_append_sep, hsplit, walk_append, walk,
      unescapeChars_escapeChars]

end SchemaCompiler.Pointer
