import Mathlib.Data.Set.Function
import SchemaCompiler.Proofs.DataPointers

/-!
# Paths as pointers

A path is printed as a JSON pointer without saying which of its segments are keys and which are
indices. Where the path leads to a value, the containers on the way tell: the pointer leads to the
same value, and no other path into the same instance is printed like it.
-/

namespace SchemaCompiler

namespace Pointer

theorem escapeChars_digits {digits : List Char} (h : ∀ c ∈ digits, c.isDigit = true) :
    escapeChars digits = digits := by
  induction digits with
  | nil => rfl
  | cons c digits ih =>
    have hc := h c List.mem_cons_self
    have htilde : c ≠ '~' := by
      rintro rfl
      cases hc
    have hslash : c ≠ '/' := by
      rintro rfl
      cases hc
    rw [escapeChars_cons htilde hslash, ih fun d hd => h d (List.mem_cons_of_mem c hd)]

theorem written_injective : Function.Injective written := by
  intro tokens others heq
  have hpieces := congrArg (splitChars '/') heq
  rw [splitChars_written, splitChars_written] at hpieces
  have hescape : Function.Injective fun token : String => escapeChars token.toList := by
    intro token other h
    have hread := congrArg unescapeChars h
    simp only [unescapeChars_escapeChars] at hread
    exact String.toList_inj.mp hread
  exact List.map_injective_iff.mpr hescape (List.cons.inj hpieces).2

/-! ## Indices -/

theorem isDigit_repr (i : Nat) : ∀ c ∈ i.repr.toList, c.isDigit = true := by
  rw [Nat.toList_repr]
  exact fun c hc => Nat.isDigit_of_mem_toDigits (by decide) (by decide) hc

theorem spells_repr {i : Nat} (h : i < 18446744073709551616) : Spells i.repr.toList i where
  nonempty := by
    rw [Nat.toList_repr]
    exact Nat.toDigits_ne_nil
  decimal := isDigit_repr i
  number_eq := by
    rw [← foldl_digits, Nat.toList_repr]
    simpa [Nat.ofDigitChars_eq_foldl, Nat.mul_comm] using Nat.ofDigitChars_ten_toDigits (n := i)
  fits := h

theorem head?_toDigits_ne_zero {n : Nat} (hn : 0 < n) :
    (Nat.toDigits 10 n).head? ≠ some '0' := by
  induction n using Nat.strong_induction_on with
  | _ n ih =>
    -- The first digit of `n` is that of `n / 10` as long as there are two.
    rcases Nat.lt_or_ge n 10 with hlt | hge
    · rw [Nat.toDigits_of_lt_base hlt, List.head?_singleton]
      intro hzero
      have := Nat.digitChar_eq_zero.mp (Option.some.inj hzero)
      omega
    · rw [Nat.toDigits_of_base_le (by decide) hge, List.head?_append_of_ne_nil _ Nat.toDigits_ne_nil]
      exact ih (n / 10) (by omega) (by omega)

theorem usual_repr (i : Nat) : Usual i.repr.toList := by
  refine ⟨fun hplus => ?_, fun hzero => ?_⟩
  · have hdigit := isDigit_repr i '+' (List.mem_of_mem_head? hplus)
    cases hdigit
  · rw [Nat.toList_repr] at hzero ⊢
    rcases Nat.eq_zero_or_pos i with rfl | hi
    · rfl
    · exact absurd hzero (head?_toDigits_ne_zero hi)

theorem index?_repr {i : Nat} (h : i < 18446744073709551616) : index? i.repr.toList = some i := by
  rw [index?_of_usual (usual_repr i), spelledIndex?_eq_some_iff]
  exact .inl (spells_repr h)

end Pointer

namespace Segment

def text : Segment → String
  | .key name => name
  | .index i => i.repr

def Fits : Segment → Prop
  | .key _ => True
  | .index i => i < 18446744073709551616

instance : DecidablePred Fits
  | .key _ => .isTrue trivial
  | .index i => inferInstanceAs (Decidable (i < 18446744073709551616))

theorem toList_token (segment : Segment) :
    segment.token.toList = Pointer.escapeChars segment.text.toList := by
  cases segment with
  | key name => exact String.toList_ofList
  | index i => exact (Pointer.escapeChars_digits (Pointer.isDigit_repr i)).symm

/-- What a segment selects, its text selects as an unescaped token. -/
theorem step_text {segment : Segment} {v w : Json} (hfits : segment.Fits)
    (h : segment.get? v = some w) : Pointer.step segment.text v = some w := by
  cases segment with
  | key name =>
    cases v with
    | obj fields => exact h
    | _ => cases h
  | index i =>
    cases v with
    | arr items =>
      rw [Pointer.step, text, Pointer.index?_repr hfits, Option.bind_some]
      exact h
    | _ => cases h

/-- The container tells a key from an index. -/
theorem eq_of_text_eq {segment other : Segment} {v w w' : Json} (hsegment : segment.get? v = some w)
    (hother : other.get? v = some w') (h : segment.text = other.text) : segment = other := by
  cases v with
  | obj fields =>
    cases segment with
    | key name =>
      cases other with
      | key name' => exact congrArg key h
      | index i => cases hother
    | index i => cases hsegment
  | arr items =>
    cases segment with
    | key name => cases hsegment
    | index i =>
      cases other with
      | key name => cases hother
      | index j =>
        have hdigits := congrArg String.toList h
        simp only [text, Nat.toList_repr] at hdigits
        exact congrArg index (eq_of_toDigits_eq hdigits)
  | _ => cases segment <;> cases hsegment

end Segment

namespace Path

def Fits (path : Path) : Prop := ∀ segment ∈ path, segment.Fits

instance (path : Path) : Decidable path.Fits :=
  inferInstanceAs (Decidable (∀ segment ∈ path, segment.Fits))

theorem toList_pointer (path : Path) :
    path.pointer.toList = Pointer.written (path.map Segment.text) := by
  induction path with
  | nil => rfl
  | cons segment path ih =>
    rw [pointer, String.toList_append, String.toList_append, ih, segment.toList_token,
      List.map_cons, Pointer.written_cons]
    rfl

theorem walk_texts {path : Path} {root v : Json} (hfits : path.Fits)
    (h : path.resolve root = some v) : Pointer.walk root (path.map Segment.text) = some v := by
  induction path generalizing root with
  | nil => exact h
  | cons segment path ih =>
    obtain ⟨child, hchild, hrest⟩ := Option.bind_eq_some_iff.mp h
    obtain ⟨hsegment, hpath⟩ := List.forall_mem_cons.mp hfits
    rw [List.map_cons, Pointer.walk, Segment.step_text hsegment hchild, Option.bind_some]
    exact ih hpath hrest

theorem eq_of_texts_eq {path other : Path} {root v w : Json} (hpath : path.resolve root = some v)
    (hother : other.resolve root = some w)
    (h : path.map Segment.text = other.map Segment.text) : path = other := by
  induction path generalizing other root with
  | nil => exact (List.map_eq_nil_iff.mp h.symm).symm
  | cons segment path ih =>
    cases other with
    | nil => cases h
    | cons segment' other =>
      obtain ⟨htext, hrest⟩ := List.cons.inj h
      obtain ⟨child, hchild, hpath⟩ := Option.bind_eq_some_iff.mp hpath
      obtain ⟨child', hchild', hother⟩ := Option.bind_eq_some_iff.mp hother
      -- The same segment leads both paths to the same child, where they go on.
      obtain rfl := Segment.eq_of_text_eq hchild hchild' htext
      obtain rfl : child = child' := Option.some.inj (hchild.symm.trans hchild')
      rw [ih hpath hother hrest]

/-- A path that leads to a value is printed as a pointer to this value and like no other such path. -/
theorem pointer_faithful (root : Json) :
    (∀ path : Path, path.Fits → (path.resolve root).isSome →
      Pointer.resolve path.pointer root = path.resolve root) ∧
    Set.InjOn pointer {path | (path.resolve root).isSome} := by
  constructor
  · intro path hfits hsome
    obtain ⟨v, hv⟩ := Option.isSome_iff_exists.mp hsome
    rw [Pointer.resolve_written path.toList_pointer, walk_texts hfits hv, hv]
  · intro path hpath other hother heq
    obtain ⟨v, hv⟩ := Option.isSome_iff_exists.mp hpath
    obtain ⟨w, hw⟩ := Option.isSome_iff_exists.mp hother
    refine eq_of_texts_eq hv hw (Pointer.written_injective ?_)
    rw [← path.toList_pointer, ← other.toList_pointer, heq]

/-- Keys that look like an escape, an index and two keys, and one that looks like nothing. -/
theorem pointer_faithful_odd_keys :
    let inner : Json := .obj [("a", .obj [("b", .null)]), ("a/b", .bool true)]
    let root : Json := .obj [("~1", .obj [("0", .arr [.obj [("", inner)]])])]
    let path : Path := [.key "~1", .key "0", .index 0, .key "", .key "a/b"]
    let other : Path := [.key "~1", .key "0", .index 0, .key "", .key "a", .key "b"]
    path.pointer = "/~01/0/0//a~1b" ∧ path.resolve root = some (.bool true) ∧
      Pointer.resolve "/~01/0/0//a~1b" root = some (.bool true) ∧
      other.resolve root = some .null ∧ other.pointer ≠ path.pointer := by
  intro inner root path other
  have hpointer : path.pointer = "/~01/0/0//a~1b" := by decide +zetaReduce
  have hfits : path.Fits := by decide +zetaReduce
  have hdistinct : other ≠ path := by decide +zetaReduce
  obtain ⟨hresolve, hinjective⟩ := pointer_faithful root
  have hfound : Pointer.resolve path.pointer root = some (.bool true) := hresolve path hfits rfl
  exact ⟨hpointer, rfl, hpointer ▸ hfound, rfl, fun heq => hdistinct (hinjective rfl rfl heq)⟩

end Path

end SchemaCompiler
