import SchemaCompiler.Text

/-!
# Replaced text

How the occurrences of a pattern are replaced from left to right: what stands before an occurrence
and begins none stays, an occurrence makes way for the replacement, and the search goes on behind it.
-/

namespace SchemaCompiler.Text

variable {c : Char} {pattern replacement : List Char}

theorem replaceChars_skip (skipped rest : List Char) :
    replaceChars pattern replacement skipped.length (skipped ++ rest) =
      replaceChars pattern replacement 0 rest := by
  induction skipped with
  | nil => rfl
  | cons d skipped ih => simpa [replaceChars] using ih

theorem replaceChars_hit (hpattern : pattern ≠ []) (after : List Char) :
    replaceChars pattern replacement 0 (pattern ++ after) =
      replacement ++ replaceChars pattern replacement 0 after := by
  obtain ⟨c, cs, rfl⟩ := List.exists_cons_of_ne_nil hpattern
  have hmatch : (c :: cs).isPrefixOf (c :: (cs ++ after)) = true :=
    List.isPrefixOf_iff_prefix.mpr ⟨after, rfl⟩
  rw [List.cons_append, replaceChars, if_pos hmatch, List.length_cons, Nat.add_sub_cancel,
    replaceChars_skip]

theorem replaceChars_hit_char (rest : List Char) :
    replaceChars [c] replacement 0 (c :: rest) =
      replacement ++ replaceChars [c] replacement 0 rest :=
  replaceChars_hit (List.cons_ne_nil c []) rest

theorem replaceChars_miss {rest : List Char} (h : ¬ pattern <+: c :: rest) :
    replaceChars pattern replacement 0 (c :: rest) =
      c :: replaceChars pattern replacement 0 rest := by
  rw [replaceChars, if_neg (by rwa [List.isPrefixOf_iff_prefix])]

theorem replaceChars_miss_head {d : Char} (h : d ≠ c) (rest : List Char) :
    replaceChars (c :: pattern) replacement 0 (d :: rest) =
      d :: replaceChars (c :: pattern) replacement 0 rest :=
  replaceChars_miss fun hoccurs => h (List.cons_prefix_cons.mp hoccurs).1.symm

theorem replaceChars_plain {text : List Char} (h : c ∉ text) (rest : List Char) :
    replaceChars (c :: pattern) replacement 0 (text ++ rest) =
      text ++ replaceChars (c :: pattern) replacement 0 rest := by
  induction text with
  | nil => rfl
  | cons d text ih =>
    rw [List.mem_cons, not_or] at h
    rw [List.cons_append, replaceChars_miss_head (Ne.symm h.1), ih h.2, List.cons_append]

theorem replaceChars_of_not_mem {text : List Char} (h : c ∉ text) :
    replaceChars (c :: pattern) replacement 0 text = text := by
  have hplain : replaceChars (c :: pattern) replacement 0 (text ++ []) = text ++ [] :=
    replaceChars_plain h []
  rwa [List.append_nil] at hplain

/-- A pattern whose first character does not occur around it is replaced once. -/
theorem replaceChars_once {before after : List Char} (hbefore : c ∉ before)
    (hafter : c ∉ after) :
    replaceChars (c :: pattern) replacement 0 (before ++ c :: (pattern ++ after)) =
      before ++ replacement ++ after := by
  rw [replaceChars_plain hbefore, ← List.cons_append, replaceChars_hit (List.cons_ne_nil c pattern),
    replaceChars_of_not_mem hafter, List.append_assoc]

theorem toList_replace (pattern replacement text : String) :
    (replace pattern replacement text).toList =
      replaceChars pattern.toList replacement.toList 0 text.toList :=
  String.toList_ofList

/-- A replacement brings no character to the front but its own first one. -/
theorem head?_of_replaceChars {cs : List Char} {d : Char} (hcd : c ≠ d)
    (h : (replaceChars pattern (d :: replacement) 0 cs).head? = some c) : cs.head? = some c := by
  cases cs with
  | nil => exact h
  | cons first rest =>
    rw [replaceChars] at h
    split at h
    · exact absurd (Option.some.inj h).symm hcd
    · exact h

end SchemaCompiler.Text
