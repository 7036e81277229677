import SchemaCompiler.Proofs.DataPointers

/-!
# Reference tokens

The reference token of a key is written by replacing first its tildes and then its slashes, and read
by undoing the two replacements in the opposite order. Between them, these make a bijection of all
texts and the texts that can stand between two slashes of a pointer: those without a slash in which
tildes are followed by `0` or `1`.
-/

namespace SchemaCompiler.Pointer

open Text

/-! ## Writing and reading by replacing -/

theorem replaceChars_escape (cs : List Char) :
    replaceChars ['/'] ['~', '1'] 0 (replaceChars ['~'] ['~', '0'] 0 cs) = escapeChars cs := by
  fun_induction escapeChars cs with
  | case1 => rfl
  | case2 rest ih =>
    have hplain : '/' ∉ ['~', '0'] := by decide
    rw [replaceChars_hit_char, replaceChars_plain hplain, ih]
    rfl
  | case3 rest ih =>
    rw [replaceChars_miss_head (by decide), replaceChars_hit_char, ih]
    rfl
  | case4 c rest htilde hslash ih =>
    rw [replaceChars_miss_head htilde, replaceChars_miss_head hslash, ih]

theorem replaceChars_unescape (cs : List Char) :
    replaceChars ['~', '0'] ['~'] 0 (replaceChars ['~', '1'] ['/'] 0 cs) = unescapeChars cs := by
  fun_induction unescapeChars cs with
  | case1 => rfl
  | case2 rest ih =>
    have hmiss : ¬ ['~', '1'] <+: '~' :: '0' :: rest := by simp
    have hkept : replaceChars ['~', '1'] ['/'] 0 ('~' :: '0' :: rest) =
        ['~', '0'] ++ replaceChars ['~', '1'] ['/'] 0 rest := by
      rw [replaceChars_miss hmiss, replaceChars_miss_head (by decide)]
      rfl
    rw [hkept, replaceChars_hit (List.cons_ne_nil _ _), ih]
    rfl
  | case3 rest ih =>
    have hslash : replaceChars ['~', '1'] ['/'] 0 ('~' :: '1' :: rest) =
        ['/'] ++ replaceChars ['~', '1'] ['/'] 0 rest :=
      replaceChars_hit (List.cons_ne_nil _ _) rest
    have hplain : '~' ∉ ['/'] := by decide
    rw [hslash, replaceChars_plain hplain, ih]
    rfl
  | case4 c rest hzero hone ih =>
    have hfirst : ¬ ['~', '1'] <+: c :: rest := by
      rintro ⟨after, heq⟩
      obtain ⟨hc, hrest⟩ := List.cons.inj heq
      exact hone after hc.symm hrest.symm
    -- Only slashes are put in, so a zero behind a tilde has stood there before.
    have hsecond : ¬ ['~', '0'] <+: c :: replaceChars ['~', '1'] ['/'] 0 rest := by
      rintro ⟨after, heq⟩
      obtain ⟨hc, hrest⟩ := List.cons.inj heq
      have hhead : (replaceChars ['~', '1'] ['/'] 0 rest).head? = some '0' := by
        rw [← hrest]
        rfl
      obtain ⟨more, hmore⟩ :=
        List.head?_eq_some_iff.mp (head?_of_replaceChars (by decide) hhead)
      exact hzero more hc.symm hmore
    rw [replaceChars_miss hfirst, replaceChars_miss hsecond, ih]

theorem escape_eq_replace (key : String) :
    escape key = replace "/" "~1" (replace "~" "~0" key) := by
  rw [replace, toList_replace]
  exact congrArg String.ofList (replaceChars_escape key.toList).symm

theorem unescape_eq_replace (token : String) :
    unescape token = replace "~0" "~" (replace "~1" "/" token) := by
  rw [replace, toList_replace]
  exact congrArg String.ofList (replaceChars_unescape token.toList).symm

/-! ## Keys and their tokens -/

/-- Text that can stand between two slashes of a pointer. -/
@[mk_iff]
structure IsToken (text : String) : Prop where
  plain : '/' ∉ text.toList
  escaped : Escaped text.toList

instance (text : String) : Decidable (IsToken text) :=
  decidable_of_iff ('/' ∉ text.toList ∧ wellEscaped text.toList = true) <| by
    rw [isToken_iff, wellEscaped_iff]

theorem escaped_escapeChars (cs : List Char) : Escaped (escapeChars cs) := by
  fun_induction escapeChars cs with
  | case1 => exact escaped_nil
  | case2 rest ih => exact (escaped_tilde (.inl rfl)).mpr ih
  | case3 rest ih => exact (escaped_tilde (.inr rfl)).mpr ih
  | case4 c rest htilde hslash ih => exact (escaped_cons htilde).mpr ih

theorem isToken_escape (key : String) : IsToken (escape key) where
  plain := by simpa [escape] using slash_not_mem_escapeChars key.toList
  escaped := by simpa [escape] using escaped_escapeChars key.toList

theorem unescape_escape (key : String) : unescape (escape key) = key := by
  rw [unescape, escape, String.toList_ofList, unescapeChars_escapeChars, String.ofList_toList]

/-- Every token is written for some key. -/
theorem IsToken.exists_escape {token : String} (h : IsToken token) : ∃ key, token = escape key := by
  obtain ⟨key, tokens, heq⟩ := exists_token_written h.escaped
  cases tokens with
  | nil =>
    refine ⟨String.ofList key, String.toList_inj.mp ?_⟩
    rw [heq, escape, String.toList_ofList, String.toList_ofList, written_nil, List.append_nil]
  | cons next tokens =>
    -- A second token would stand behind a slash.
    have hslash : '/' ∈ token.toList := by
      rw [heq, written_cons]
      exact List.mem_append_right _ List.mem_cons_self
    exact absurd hslash h.plain

/-- Keys are written as tokens, each token for the one key it is read as. -/
theorem escape_bijective :
    (∀ key, escape key = replace "/" "~1" (replace "~" "~0" key)) ∧
    (∀ token, unescape token = replace "~0" "~" (replace "~1" "/" token)) ∧
    (∀ key, IsToken (escape key) ∧ unescape (escape key) = key) ∧
    ∀ token, IsToken token → escape (unescape token) = token := by
  refine ⟨escape_eq_replace, unescape_eq_replace,
    fun key => ⟨isToken_escape key, unescape_escape key⟩, fun token h => ?_⟩
  obtain ⟨key, rfl⟩ := h.exists_escape
  rw [unescape_escape]

/-- A token that is read differently if the replacements change places. -/
theorem escape_bijective_overlap :
    IsToken "~01~0~1~00" ∧ unescape "~01~0~1~00" = "~1~/~0" ∧
      escape (unescape "~01~0~1~00") = "~01~0~1~00" := by
  have htoken : IsToken "~01~0~1~00" := by decide
  exact ⟨htoken, by decide, escape_bijective.2.2.2 _ htoken⟩

end SchemaCompiler.Pointer
