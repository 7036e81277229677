import SchemaCompiler.Proofs.Collecting
import SchemaCompiler.Proofs.Grammar
import SchemaCompiler.Proofs.Whereabouts

/-!
# Pointers into the data

A keyword value can be taken from the data, by a pointer that starts at the instance or some levels
above the keyword. Relative pointers are refused exactly if they go up beyond the root, and in a run
they lead where the properties and the reference tokens say. Absolute ones address what a JSON
pointer addresses as long as no token is empty and no array index is spelled in an unusual way.
-/

namespace SchemaCompiler

open Run

namespace Pointer

/-- The text of a pointer with given reference tokens. -/
def written (tokens : List String) : List Char :=
  tokens.flatMap fun token => '/' :: escapeChars token.toList

@[simp] theorem written_nil : written [] = [] := rfl

@[simp] theorem written_cons (token : String) (tokens : List String) :
    written (token :: tokens) = '/' :: (escapeChars token.toList ++ written tokens) := rfl

theorem escapeChars_cons {c : Char} (htilde : c ≠ '~') (hslash : c ≠ '/') (cs : List Char) :
    escapeChars (c :: cs) = c :: escapeChars cs := by
  rw [escapeChars.eq_def]
  split <;> simp_all

/-- Text with well-formed escapes is a token with a pointer behind it. -/
theorem exists_token_written {cs : List Char} (h : Escaped cs) :
    ∃ token tokens, cs = escapeChars token ++ written tokens := by
  rw [← wellEscaped_iff] at h
  fun_induction wellEscaped cs with
  | case1 => exact ⟨[], [], rfl⟩
  | case2 rest ih =>
    obtain ⟨token, tokens, rfl⟩ := ih h
    exact ⟨'~' :: token, tokens, rfl⟩
  | case3 rest ih =>
    obtain ⟨token, tokens, rfl⟩ := ih h
    exact ⟨'/' :: token, tokens, rfl⟩
  | case4 => cases h
  | case5 c rest _ _ hc ih =>
    obtain ⟨token, tokens, rfl⟩ := ih h
    by_cases hslash : c = '/'
    · exact ⟨[], String.ofList token :: tokens, by simp [hslash, escapeChars]⟩
    · exact ⟨c :: token, tokens, by rw [escapeChars_cons hc hslash, List.cons_append]⟩

/-- A pointer with well-formed escapes has reference tokens. -/
theorem exists_written {cs : List Char} (h : cs = [] ∨ Absolute cs) :
    ∃ tokens, cs = written tokens := by
  rcases h with rfl | ⟨⟨rest, rfl⟩, hescaped⟩
  · exact ⟨[], rfl⟩
  · obtain ⟨token, tokens, rfl⟩ := exists_token_written ((escaped_cons (by decide)).mp hescaped)
    exact ⟨String.ofList token :: tokens, by simp⟩

theorem splitChars_token_written (cs : List Char) (tokens : List String) :
    splitChars '/' (escapeChars cs ++ written tokens) =
      escapeChars cs :: tokens.map fun token => escapeChars token.toList := by
  induction tokens generalizing cs with
  | nil => simpa using splitChars_of_not_mem (slash_not_mem_escapeChars cs)
  | cons token tokens ih =>
    rw [written_cons, splitChars_append_sep, ih,
      splitChars_of_not_mem (slash_not_mem_escapeChars cs)]
    rfl

theorem splitChars_written (tokens : List String) :
    splitChars '/' (written tokens) = [] :: tokens.map fun token => escapeChars token.toList :=
  splitChars_token_written [] tokens

theorem resolve_written {pointer : String} {tokens : List String}
    (h : pointer.toList = written tokens) (v : Json) : resolve pointer v = walk v tokens := by
  rw [resolve, h]
  cases tokens with
  | nil => rfl
  | cons token tokens =>
    simp [splitChars_token_written, unescapeChars_escapeChars, List.map_map, Function.comp_def]

theorem escapeChars_eq_nil_iff {cs : List Char} : escapeChars cs = [] ↔ cs = [] := by
  refine ⟨fun h => ?_, fun h => by rw [h]; rfl⟩
  rw [← unescapeChars_escapeChars cs, h]
  rfl

/-- The tokens that are followed in the data are those that are not empty. -/
theorem pieces_written (tokens : List String) :
    (splitChars '/' (written tokens)).filter (fun piece => !piece.isEmpty) =
      (tokens.filter (· ≠ "")).map fun token => escapeChars token.toList := by
  rw [splitChars_written, List.filter_cons_of_neg (by simp), List.filter_map]
  congr 1
  refine List.filter_congr fun token _ => ?_
  have hempty : (escapeChars token.toList).isEmpty = decide (token = "") := by
    rw [Bool.eq_iff_iff, List.isEmpty_iff, escapeChars_eq_nil_iff, String.toList_eq_nil_iff,
      decide_eq_true_iff]
  simp [hempty]

/-- The token spells an unsigned number, in digits that a plus may lead. -/
def Unsigned (token : List Char) (n : Nat) : Prop :=
  Spells token n ∨ ∃ digits, token = '+' :: digits ∧ Spells digits n

theorem spelledIndex?_eq_some_iff {token : String} {n : Nat} :
    Segment.spelledIndex? token = some n ↔ Unsigned token.toList n := by
  unfold Segment.spelledIndex? Unsigned
  split
  next digits hplus =>
    rw [word?_eq_some_iff, hplus]
    constructor
    · exact fun h => .inr ⟨digits, rfl, h⟩
    · rintro (h | ⟨own, heq, h⟩)
      · have hdigit := h.decimal '+' List.mem_cons_self
        cases hdigit
      · obtain rfl := (List.cons.inj heq).2
        exact h
  next hplus =>
    rw [word?_eq_some_iff]
    constructor
    · exact .inl
    · rintro (h | ⟨digits, heq, -⟩)
      · exact h
      · exact absurd heq (hplus digits)

/-- The token is no index with a plus or with a leading zero. -/
def Usual (token : List Char) : Prop :=
  token.head? ≠ some '+' ∧ (token.head? = some '0' → token = ['0'])

theorem index?_of_usual {token : String} (h : Usual token.toList) :
    index? token.toList = Segment.spelledIndex? token := by
  obtain ⟨hplus, hzero⟩ := h
  unfold index? Segment.spelledIndex?
  split
  next c digits heq =>
    rw [heq] at hzero
    cases hzero rfl
  next =>
    split
    next digits heq =>
      rw [heq] at hplus
      exact absurd rfl hplus
    next => rfl

end Pointer

/-- The tokens lead from one value to another: as keys in objects, as unsigned numbers in arrays. -/
inductive Json.Leads : Json → List String → Json → Prop where
  | here (v : Json) : Leads v [] v
  | key {fields : List (String × Json)} {token : String} {tokens : List String} {v w : Json}
      (found : lookup token fields = some v) (rest : Leads v tokens w) :
      Leads (.obj fields) (token :: tokens) w
  | item {items : List Json} {token : String} {tokens : List String} {n : Nat} {v w : Json}
      (spelled : Pointer.Unsigned token.toList n) (found : items[n]? = some v)
      (rest : Leads v tokens w) : Leads (.arr items) (token :: tokens) w

namespace Json

def along (v : Json) (tokens : List String) : Option Json :=
  tokens.foldl (fun found token => found.bind (child? token)) (some v)

theorem foldl_child?_none (tokens : List String) :
    tokens.foldl (fun found token => found.bind (child? token)) none = none := by
  induction tokens with
  | nil => rfl
  | cons token tokens ih => exact ih

theorem along_cons (v : Json) (token : String) (tokens : List String) :
    v.along (token :: tokens) = (child? token v).bind (along · tokens) := by
  rw [along, List.foldl_cons, Option.bind_some]
  cases child? token v with
  | none => exact foldl_child?_none tokens
  | some w => rfl

theorem leads_cons_iff {v w : Json} {token : String} {tokens : List String} :
    v.Leads (token :: tokens) w ↔ ∃ u, child? token v = some u ∧ u.Leads tokens w := by
  constructor
  · intro h
    cases h with
    | key found rest => exact ⟨_, found, rest⟩
    | item spelled found rest =>
      refine ⟨_, ?_, rest⟩
      rw [child?]
      simp [Segment.select?, Pointer.spelledIndex?_eq_some_iff.mpr spelled, Segment.get?, found]
  · rintro ⟨u, hchild, hrest⟩
    cases v with
    | obj fields => exact .key hchild hrest
    | arr items =>
      rw [child?] at hchild
      cases hspelled : Segment.spelledIndex? token with
      | none => simp [Segment.select?, hspelled] at hchild
      | some n =>
        simp only [Segment.select?, hspelled, Option.map_some, Option.bind_some,
          Segment.get?] at hchild
        exact .item (Pointer.spelledIndex?_eq_some_iff.mp hspelled) hchild hrest
    | _ => simp [child?, Segment.select?] at hchild

theorem leads_iff {v w : Json} {tokens : List String} :
    v.Leads tokens w ↔ v.along tokens = some w := by
  induction tokens generalizing v with
  | nil =>
    refine ⟨fun h => ?_, fun h => ?_⟩
    · cases h
      rfl
    · obtain rfl : v = w := Option.some.inj h
      exact .here v
  | cons token tokens ih =>
    rw [leads_cons_iff, along_cons, Option.bind_eq_some_iff]
    exact exists_congr fun u => and_congr_right fun _ => ih

theorem follow_written (v : Json) (tokens : List String) :
    v.follow (Pointer.written tokens) = v.along (tokens.filter (· ≠ "")) := by
  rw [follow, Pointer.pieces_written, List.foldl_map]
  simp only [Pointer.unescapeChars_escapeChars, String.ofList_toList]
  rfl

/-- As far as the tokens lead, none is empty and array items are spelled in the usual way. -/
def Plain : Json → List String → Prop
  | _, [] => True
  | v, token :: tokens =>
    token ≠ "" ∧ (∀ items, v = .arr items → Pointer.Usual token.toList) ∧
      ∀ w, child? token v = some w → w.Plain tokens

theorem step_of_usual {v : Json} {token : String}
    (h : ∀ items, v = .arr items → Pointer.Usual token.toList) :
    Pointer.step token v = child? token v := by
  cases v with
  | arr items =>
    have hindex := Pointer.index?_of_usual (h items rfl)
    rw [Pointer.step, hindex, child?, Segment.select?]
    cases Segment.spelledIndex? token <;> rfl
  | _ => rfl

/-- Along plain tokens, both ways to follow them lead to the same value. -/
theorem walk_of_plain {v : Json} {tokens : List String} (h : v.Plain tokens) :
    v.along (tokens.filter (· ≠ "")) = Pointer.walk v tokens := by
  induction tokens generalizing v with
  | nil => rfl
  | cons token tokens ih =>
    obtain ⟨hne, husual, hrest⟩ := h
    rw [List.filter_cons_of_pos (by simpa using hne), along_cons, Pointer.walk,
      step_of_usual husual]
    cases hchild : child? token v with
    | none => rfl
    | some w => exact ih (hrest w hchild)

end Json

namespace DataLevel

theorem length_names (here : DataLevel) : here.names.length = here.level := by
  induction here with
  | root => rfl
  | property parent slot name ih => simp [names, level, ih]

theorem exists_up {here : DataLevel} {n : Nat} (h : n ≤ here.names.length) :
    ∃ level, here.up? n = some level := by
  cases hup : here.up? n with
  | some level => exact ⟨level, rfl⟩
  | none =>
    rw [length_names] at h
    exact absurd (up?_eq_none_iff.mp hup) (Nat.not_lt.mpr h)

/-- What begins with digits is a relative pointer. -/
theorem relative_of_digits {pointer : String} {digits rest : List Char} (hdigits : digits ≠ [])
    (hdecimal : ∀ c ∈ digits, c.isDigit = true) (hpointer : pointer.toList = digits ++ rest) :
    Pointer.Relative pointer := by
  obtain ⟨c, digits, rfl⟩ := List.exists_cons_of_ne_nil hdigits
  have hc := hdecimal c List.mem_cons_self
  rw [Pointer.Relative, hpointer]
  refine ⟨by simp, fun more heq => ?_⟩
  rw [(List.cons.inj heq).1] at hc
  cases hc

theorem resolve_data (here : DataLevel) {pointer : String} {digits rest : List Char} {up : Nat}
    (hup : Pointer.Spells digits up) (hrest : rest = [] ∨ Pointer.Absolute rest)
    (hpointer : pointer.toList = digits ++ rest) :
    (∀ level, here.up? up = some level →
      here.resolve pointer = .ok (Expr.members (.var level.slot) rest)) ∧
    (here.up? up = none →
      here.resolve pointer = .error (.dataPointerOutOfRange .data up here.names.length)) := by
  obtain ⟨htake, hdrop⟩ := hup.takeWhile (Pointer.not_isDigit_of_absolute hrest)
  have hhash : rest ≠ ['#'] := by
    rcases hrest with rfl | ⟨⟨more, rfl⟩, -⟩
    · simp
    · simp
  have hvalid : (rest.isEmpty || Pointer.isPointer rest) = true := by
    rw [Bool.or_eq_true, List.isEmpty_iff, Pointer.isPointer_iff]
    exact hrest
  rw [resolve_relative (relative_of_digits hup.nonempty hup.decimal hpointer), hpointer, htake,
    hdrop, Pointer.word?_eq_some_iff.mpr hup, length_names]
  simp only [hhash, if_false, hvalid, if_true]
  exact ⟨fun level habove => by simp only [habove], fun hnone => by simp only [hnone]⟩

theorem resolve_name (here : DataLevel) {pointer : String} {digits : List Char} {up : Nat}
    (hup : Pointer.Spells digits up) (hpointer : pointer.toList = digits ++ ['#']) :
    (∀ parent slot name, here.up? up = some (.property parent slot name) →
      here.resolve pointer = .ok (.ofString name)) ∧
    (here.up? up = none ∨ here.up? up = some .root →
      here.resolve pointer = .error (.dataPointerOutOfRange .property up here.names.length)) := by
  have hrest : ∀ c ∈ ['#'].head?, c.isDigit = false := by simp
  obtain ⟨htake, hdrop⟩ := hup.takeWhile hrest
  rw [resolve_relative (relative_of_digits hup.nonempty hup.decimal hpointer), hpointer, htake,
    hdrop, Pointer.word?_eq_some_iff.mpr hup, length_names]
  simp only [if_true]
  refine ⟨fun parent slot name habove => by simp only [habove], ?_⟩
  rintro (hnone | hroot)
  · simp only [hnone]
  · simp only [hroot]

theorem up?_property {here : DataLevel} {n : Nat} (h : n < here.names.length) :
    ∃ parent slot name, here.up? n = some (.property parent slot name) ∧
      here.names[here.names.length - n - 1]? = some name := by
  have hlevel : n < here.level := here.length_names ▸ h
  obtain ⟨parent, slot, name, hup, -⟩ := properties_getElem? hlevel
  have hnames : parent.names ++ [name] = here.names.take (here.names.length - n) := names_up hup
  have hlength : parent.names.length + 1 = here.names.length - n := by
    have := congrArg List.length hnames
    simp only [List.length_append, List.length_singleton, List.length_take] at this
    omega
  refine ⟨parent, slot, name, hup, ?_⟩
  calc here.names[here.names.length - n - 1]?
      = (here.names.take (here.names.length - n))[here.names.length - n - 1]? :=
        (List.getElem?_take_of_lt (by omega)).symm
    _ = (parent.names ++ [name])[here.names.length - n - 1]? := by rw [hnames]
    _ = some name := by rw [← hlength]; simp

/-- Which relative pointers are refused: those to data above the root, those to the name of the
root, which has none, and those with a number past 64 bits. -/
structure Bounded (here : DataLevel) : Prop where
  data : ∀ {pointer : String} {digits rest : List Char} {up : Nat}, Pointer.Spells digits up →
    rest = [] ∨ Pointer.Absolute rest → pointer.toList = digits ++ rest →
    (Succeeds (here.resolve pointer) ↔ up ≤ here.names.length) ∧
      (here.names.length < up →
        here.resolve pointer = .error (.dataPointerOutOfRange .data up here.names.length))
  name : ∀ {pointer : String} {digits : List Char} {up : Nat}, Pointer.Spells digits up →
    pointer.toList = digits ++ ['#'] →
    (Succeeds (here.resolve pointer) ↔ up < here.names.length) ∧
      (here.names.length ≤ up →
        here.resolve pointer = .error (.dataPointerOutOfRange .property up here.names.length))
  huge : ∀ {pointer : String} {digits rest : List Char}, digits ≠ [] →
    (∀ c ∈ digits, c.isDigit = true) → 18446744073709551616 ≤ Pointer.number digits →
    (rest = ['#'] ∨ rest = [] ∨ Pointer.Absolute rest) → pointer.toList = digits ++ rest →
    here.resolve pointer = .error (.invalidDataPointer pointer)

theorem bounded (here : DataLevel) : here.Bounded where
  data {pointer digits rest up} hup hrest hpointer := by
    obtain ⟨hfound, hmissing⟩ := here.resolve_data hup hrest hpointer
    by_cases hlevel : up ≤ here.names.length
    · obtain ⟨level, habove⟩ := exists_up hlevel
      rw [hfound level habove]
      exact ⟨by simp [hlevel], fun hlt => absurd hlt (Nat.not_lt.mpr hlevel)⟩
    · have hnone : here.up? up = none := by
        rw [up?_eq_none_iff, ← length_names]
        exact Nat.lt_of_not_le hlevel
      rw [hmissing hnone]
      exact ⟨by simp [hlevel], fun _ => rfl⟩
  name {pointer digits up} hup hpointer := by
    obtain ⟨hfound, hmissing⟩ := here.resolve_name hup hpointer
    by_cases hlevel : up < here.names.length
    · obtain ⟨parent, slot, name, habove, -⟩ := up?_property hlevel
      rw [hfound parent slot name habove]
      exact ⟨by simp [hlevel], fun hle => absurd hlevel (Nat.not_lt.mpr hle)⟩
    · have hle : here.level ≤ up := here.length_names ▸ Nat.le_of_not_lt hlevel
      rw [hmissing (up?_of_level_le hle)]
      exact ⟨by simp [hlevel], fun _ => rfl⟩
  huge {pointer digits rest} hdigits hdecimal hlarge hrest hpointer := by
    have hhead : ∀ c ∈ rest.head?, c.isDigit = false := by
      rcases hrest with rfl | hrest
      · simp
      · exact Pointer.not_isDigit_of_absolute hrest
    have htake : (digits ++ rest).takeWhile Char.isDigit = digits := by
      rw [List.takeWhile_append_of_pos hdecimal]
      cases rest with
      | nil => simp
      | cons c rest => simp [hhead c rfl]
    have hword : Pointer.word? digits = none := by
      rw [Option.eq_none_iff_forall_ne_some]
      intro n hn
      have hspells := Pointer.word?_eq_some_iff.mp hn
      exact absurd (hspells.number_eq ▸ hspells.fits) (Nat.not_lt.mpr hlarge)
    rw [resolve_relative (relative_of_digits hdigits hdecimal hpointer), hpointer, htake, hword]

/-- What relative pointers yield in a frame. One to data leads up by taking so many properties away
from the end, and down along its tokens; one to a name gives the last property that is left. -/
structure Yields (here : DataLevel) (p : Program) (f : Frame) : Prop where
  data : ∀ {pointer : String} {digits rest : List Char} {up : Nat}, Pointer.Spells digits up →
    rest = [] ∨ Pointer.Absolute rest → pointer.toList = digits ++ rest → up ≤ here.names.length →
    ∃ e base, here.resolve pointer = .ok e ∧
      Path.resolve f.root ((here.names.take (here.names.length - up)).map .key) = some base ∧
      (∃ tokens, rest = Pointer.written tokens) ∧
      ∀ tokens, rest = Pointer.written tokens → (∀ token ∈ tokens, token ≠ "") →
        (∀ w, eval p f (.deref e) = .json w ↔ base.Leads tokens w) ∧
        (eval p f (.deref e) = .undefined ↔ ∀ w, ¬ base.Leads tokens w)
  name : ∀ {pointer : String} {digits : List Char} {up : Nat}, Pointer.Spells digits up →
    pointer.toList = digits ++ ['#'] → up < here.names.length →
    ∃ e name, here.resolve pointer = .ok e ∧
      here.names[here.names.length - up - 1]? = some name ∧ eval p f (.deref e) = .json (.str name)

end DataLevel

theorem Run.Val.ofOption_eq_json_iff {v : Option Json} {w : Json} :
    Val.ofOption v = .json w ↔ v = some w := by
  cases v <;> simp [Val.ofOption]

theorem Run.Val.ofOption_eq_undefined_iff {v : Option Json} :
    Val.ofOption v = .undefined ↔ v = none := by
  cases v <;> simp [Val.ofOption]

/-- Where the data is in place, relative pointers yield what they should. -/
theorem Ready.yields (p : Program) {here : DataLevel} {σ : Supply} {f : Frame}
    (hf : Ready here σ f) (ha : here.Anchored f.root) : here.Yields p f where
  data {pointer digits rest up} hup hrest hpointer hlevel := by
    obtain ⟨level, habove⟩ := DataLevel.exists_up hlevel
    have hresolve := (here.resolve_data hup hrest hpointer).1 level habove
    have hplace := hf.up habove
    have hanchored := ha.up habove
    obtain ⟨base, hbase⟩ := hanchored.exists_value
    refine ⟨_, base, hresolve, ?_, Pointer.exists_written hrest, ?_⟩
    · rw [← DataLevel.names_up habove, ← DataLevel.path_eq]
      exact hbase
    · rintro tokens rfl htokens
      have hfinds := hplace.finds_data p hanchored
      rw [hbase] at hfinds
      have hfilter : tokens.filter (· ≠ "") = tokens :=
        List.filter_eq_self.mpr fun token hmem => decide_eq_true (htokens token hmem)
      have heval : eval p f (.deref (Expr.members (.var level.slot) (Pointer.written tokens))) =
          .ofOption (base.along tokens) := by
        rw [← hfilter, ← Json.follow_written, hfilter]
        exact (hfinds.eval_members _).deref
      rw [heval]
      refine ⟨fun w => ?_, ?_⟩
      · rw [Val.ofOption_eq_json_iff, Json.leads_iff]
      · rw [Val.ofOption_eq_undefined_iff, Option.eq_none_iff_forall_ne_some]
        exact forall_congr' fun w => not_congr Json.leads_iff.symm
  name {pointer digits up} hup hpointer hlevel := by
    obtain ⟨parent, slot, name, habove, hname⟩ := DataLevel.up?_property hlevel
    have hresolve := (here.resolve_name hup hpointer).1 parent slot name habove
    exact ⟨_, name, hresolve, hname, rfl⟩

section Visited

variable {env : Environment} {read : Position → Except Halt Form} {it it₀ : Position}

theorem Reading.readClause_of_mem {keywords : List (String × Keyword)}
    {clauses : List (Mark × Clause)} (h : readClauses env read it₀ keywords = .ok clauses)
    {name : String} {keyword : Keyword} (hmem : (name, keyword) ∈ keywords) :
    ∃ mark clause, readClause env read it₀ name keyword = .ok (mark, clause) := by
  induction keywords generalizing clauses with
  | nil => cases hmem
  | cons entry rest ih =>
    obtain ⟨name', keyword'⟩ := entry
    obtain ⟨⟨mark, clause⟩, more, hone, hmore, rfl⟩ := of_readClauses_cons h
    rcases List.mem_cons.mp hmem with heq | hmem
    · cases heq
      exact ⟨mark, clause, hone⟩
    · exact ih hmore hmem

theorem Reading.read_of_mem {fields : List (String × Json)} {forms : List (String × Form)}
    (h : propertyForms read it₀ fields = .ok forms) {name : String} {below : Json}
    (hmem : (name, below) ∈ fields) :
    ∃ form, read (it₀.property .data name below).bare = .ok form := by
  induction fields generalizing forms with
  | nil => cases hmem
  | cons field rest ih =>
    obtain ⟨name', below'⟩ := field
    obtain ⟨form, more, hform, hmore, rfl⟩ := of_propertyForms_cons h
    rcases List.mem_cons.mp hmem with heq | hmem
    · cases heq
      exact ⟨form, hform⟩
    · exact ih hmore hmem

/-- A schema that is read is read at every keyword it holds. -/
theorem Reads.clause {form : Form} (h : Reads env it₀ form) (hbare : it.bare = it₀.bare)
    {name : String} {keyword : Keyword} {value : Json}
    (hregistered : (name, keyword) ∈ env.keywords) (hvalue : it.value? name = some value) :
    ∃ (read : Position → Except Halt Form) (mark : Mark) (clause : Clause),
      (∀ child form, read child = .ok form → Reads env child form) ∧
        Reading.readClause env read it₀ name keyword = .ok (mark, clause) := by
  cases h with
  | @intro read _ _ nested h =>
    have hvalue₀ : it₀.schema.field? name = some value :=
      (Position.value?_of_bare hbare name).symm.trans hvalue
    rcases Reading.of_readAt h with ⟨hit, -⟩ | ⟨hit, -⟩ | ⟨fields, clauses, hit, hclauses, -⟩
    · rw [hit] at hvalue₀
      cases hvalue₀
    · rw [hit] at hvalue₀
      cases hvalue₀
    · rw [hit] at hvalue₀
      have hpresent : (name, keyword) ∈ presentKeywords env fields :=
        List.mem_filter.mpr ⟨hregistered, Option.isSome_iff_exists.mpr ⟨value, hvalue₀⟩⟩
      obtain ⟨mark, clause, hclause⟩ := Reading.readClause_of_mem hclauses hpresent
      exact ⟨read, mark, clause, nested, hclause⟩

/-- Every position that a compilation comes to is read. -/
theorem Reads.of_visits {schema : Json} {form : Form} (h : Reads env (.root schema) form)
    (hvisits : env.Visits schema it) : ∃ it₀ form, it.bare = it₀.bare ∧ Reads env it₀ form := by
  induction hvisits with
  | root => exact ⟨_, form, rfl, h⟩
  | @property it fields name below _ registered found mem slot ih =>
    obtain ⟨it₀, form, hbare, hreads⟩ := ih
    obtain ⟨read, mark, clause, hnested, hclause⟩ := hreads.clause hbare registered found
    obtain ⟨-, -, -, hstrategy⟩ := Reading.of_readClause hclause
    obtain ⟨forms, hforms, -⟩ := Reading.exists_of_map hstrategy
    rw [← Position.value?_of_bare hbare, found] at hforms
    obtain ⟨child, hchild⟩ := Reading.read_of_mem hforms mem
    exact ⟨_, child, Position.bare_property_of_bare hbare .., hnested _ child hchild⟩
  | @expansion it name keyword value expand _ registered found chosen rule ih =>
    obtain ⟨it₀, form, hbare, hreads⟩ := ih
    have hschema := Position.schema_of_bare hbare
    obtain ⟨read, mark, clause, hnested, hclause⟩ := hreads.clause hbare registered found
    obtain ⟨rfl, -, -, hstrategy⟩ := Reading.of_readClause hclause
    have hvalue : it₀.value? name = some value :=
      (Position.value?_of_bare hbare name).symm.trans found
    have hcomputed : (dataPointer? env.options it₀ name keyword).isSome =
        (dataPointer? env.options it name keyword).isSome := by
      rw [dataPointer?, dataPointer?, hvalue, found]
    rw [Reading.strategyClause, Mark.computed, hcomputed, chosen] at hstrategy
    obtain ⟨child, hchild, -⟩ := Reading.exists_of_map hstrategy
    rw [hvalue, ← hschema, Option.getD_some] at hchild
    exact ⟨_, child, Position.bare_expansion_of_bare hbare ..,
      hnested _ child (Reading.of_readExpansion hchild).2⟩

/-- Where a schema is read, its keywords occur with pointers that lead somewhere. -/
theorem Reads.occursAt {form : Form} (h : Reads env it₀ form) (hbare : it.bare = it₀.bare)
    {name : String} {keyword : Keyword} {value : Json}
    (hregistered : (name, keyword) ∈ env.keywords) (hvalue : it.value? name = some value) :
    (⟨name, keyword, dataPointer? env.options it name keyword⟩ : Mark).OccursAt env it := by
  obtain ⟨read, mark, clause, -, hclause⟩ := h.clause hbare hregistered hvalue
  have hoccurs := Reading.occursAt_of_readClause hregistered hvalue hclause hbare
  obtain ⟨rfl, -, -, -⟩ := Reading.of_readClause hclause
  have hpointer := hoccurs.pointer
  dsimp only at hpointer
  rwa [hpointer] at hoccurs

end Visited

theorem DataLevel.resolve_slash (here : DataLevel) {pointer : String} {rest : List Char}
    (hslash : pointer.toList = '/' :: rest) :
    here.resolve pointer =
      if Pointer.isPointer ('/' :: rest) then .ok (Expr.members (.var .rootData) ('/' :: rest))
      else .error (.invalidDataPointer pointer) := by
  rw [resolve, hslash]
  rfl

/-- The absolute pointers that are accepted: those with well-formed escapes. -/
theorem DataLevel.succeeds_absolute (here : DataLevel) {pointer : String}
    (habsolute : pointer.toList = [] ∨ ∃ rest, pointer.toList = '/' :: rest) :
    Succeeds (here.resolve pointer) ↔
      pointer.toList = [] ∨ Pointer.Absolute pointer.toList := by
  rcases habsolute with hempty | ⟨rest, hslash⟩
  · rw [resolve, hempty]
    simp
  · rw [here.resolve_slash hslash, hslash, ← Pointer.isPointer_iff]
    cases Pointer.isPointer ('/' :: rest) <;> simp

/-- An accepted absolute pointer takes the instance along its tokens, the empty ones left out. -/
theorem DataLevel.eval_absolute {here : DataLevel} {pointer : String} {e : Expr} {p : Program}
    {f : Frame} {tokens : List String} (hroot : f.slots .rootData = some (.location []))
    (hwritten : pointer.toList = Pointer.written tokens) (he : here.resolve pointer = .ok e) :
    eval p f (.deref e) = .ofOption (f.root.along (tokens.filter (· ≠ ""))) := by
  have hvar : eval p f (.var .rootData) = .location [] := by
    rw [eval, Frame.valueOfName_slot (by decide), hroot]
    rfl
  have hfinds : Finds f.root (eval p f (.var .rootData)) (some f.root) :=
    .inl ⟨[], f.root, hvar, rfl, rfl⟩
  cases tokens with
  | nil =>
    rw [resolve, hwritten] at he
    obtain rfl := Except.ok.inj he
    exact hfinds.deref
  | cons token tokens =>
    rw [here.resolve_slash hwritten] at he
    split at he
    · obtain rfl := Except.ok.inj he
      rw [← Json.follow_written]
      exact (hfinds.eval_members _).deref
    · cases he

namespace Validator

variable {v : Validator} {schema : Json}

/-- Relative pointers go up the right number of levels: past the root they are refused, and in a run
they yield what the properties and their tokens lead to. The tables of a position have one entry
more than there are properties, and no look-up passes their end. -/
theorem relative_pointers_rise (v : Validator) (schema : Json) :
    let env := v.environment (declaresAsync schema)
    (∀ it, env.Visits schema it →
      it.data.slots.length = it.data.names.length + 1 ∧
      it.data.properties.length = it.data.names.length + 1 ∧
      (∀ pointer, it.data.resolveInTables pointer = some (it.data.resolve pointer)) ∧
      it.data.Bounded ∧ ∀ p f σ, it.InPlace σ f → it.data.Yields p f) ∧
    ∀ c, v.Standard → (v.compile schema).1 = .ok c →
      (∀ it, env.Visits schema it → ∀ name keyword value, (name, keyword) ∈ env.keywords →
        it.value? name = some value →
        ∀ pointer, dataPointer? env.options it name keyword = some pointer →
        Succeeds (it.data.resolve pointer)) ∧
      ∀ context data op f n,
        (op, f) ∈ traceAll (c.program context) c.procedure.body (.initial data) →
        Hint.schema.name n ∈ op.slots →
        ∃ it mark pointer e, env.Visits schema it ∧ Mark.OccursAt mark env it ∧
          mark.pointer = some pointer ∧ it.data.resolve pointer = .ok e ∧
          op = .declare (Hint.schema.name n) (.deref e) false ∧
          it.data.Yields (c.program context) f := by
  intro env
  refine ⟨fun it _ => ⟨?_, ?_, it.data.resolveInTables_eq, it.data.bounded, ?_⟩, ?_⟩
  · rw [DataLevel.length_slots, DataLevel.length_names]
  · rw [DataLevel.length_properties, DataLevel.length_names]
  · exact fun p f σ hplace => hplace.ready.yields p hplace.anchored
  · intro c hstd hc
    refine ⟨fun it hvisits name keyword value hregistered hvalue pointer hpointer => ?_, ?_⟩
    · obtain ⟨form, hform, -, -, -⟩ := Validator.simulates hstd hc
      obtain ⟨it₀, form', hbare, hreads⟩ := (Reading.reads_of_readWithin hform).of_visits hvisits
      exact (hreads.occursAt hbare hregistered hvalue).resolves pointer hpointer
    · intro context data op f n htraced hn
      obtain ⟨it, σ, hvisits, hplace, hfits⟩ := sited_of_traced hstd hc htraced
      obtain ⟨mark, pointer, hoccurs, hpointer, rfl⟩ := hfits.of_value hplace hn
      obtain ⟨e, hresolve⟩ := hoccurs.resolves pointer hpointer
      refine ⟨it, mark, pointer, e, hvisits, hoccurs, hpointer, hresolve, ?_,
        hplace.ready.yields _ hplace.anchored⟩
      rw [Mark.location, hpointer]
      simp only [hresolve]
      rfl

/-- Two properties deep, the second one within an expansion: the third level up does not exist, the
level above the keyword has a name but the one above that has none, and a value is found next to the
data. -/
theorem relative_pointers_rise_nested :
    let keyed : Keyword := {
      kind := .rule (.sync fun _ => { valid := true })
      dataDependent := true }
    let wrap : Keyword := { kind := .expansion (fun value _ _ => value) none }
    let v := extended { dataValues := true, allErrors := true } [("keyed", keyed), ("wrap", wrap)]
    let inner : Json := .obj [("keyed", .obj [("$data", .str "1/~0/01")])]
    let wrapped : Json := .obj [("properties", .obj [("", inner)])]
    let outer : Json := .obj [("wrap", wrapped)]
    let schema : Json := .obj [("properties", .obj [("a/b", outer)])]
    let data : Json := .obj [("a/b", .obj [("", .ofNat 5), ("~", .arr [.null, .str "k"])])]
    let it := (((Position.root schema).property (Hint.data.name 0) "a/b" outer).expansion ⟨0⟩ "wrap"
      wrapped).property (Hint.data.name 1) "" inner
    let env := v.environment (declaresAsync schema)
    v.Standard ∧ env.Visits schema it ∧ ¬ Succeeds (it.data.resolve "3/x") ∧
      ¬ Succeeds (it.data.resolve "2#") ∧
      (∀ p f σ, it.InPlace σ f → f.root = data → ∃ e, it.data.resolve "1/~0/01" = .ok e ∧
        eval p f (.deref e) = .json (.str "k")) ∧
      ∃ c op f, (v.compile schema).1 = .ok c ∧
        (op, f) ∈ traceAll (c.program none) c.procedure.body (.initial data) ∧
        Hint.schema.name 0 ∈ op.slots ∧
        ∃ here mark pointer e, env.Visits schema here ∧ Mark.OccursAt mark env here ∧
          mark.pointer = some pointer ∧ here.data.resolve pointer = .ok e ∧
          op = .declare (Hint.schema.name 0) (.deref e) false ∧
          here.data.Yields (c.program none) f := by
  intro keyed wrap v inner wrapped outer schema data it env
  have hstd : v.Standard := extended_standard _ (by simp [keyed, wrap])
  obtain ⟨hpositions, hruns⟩ := relative_pointers_rise v schema
  have hproperties : ("properties", Vocabulary.properties) ∈ env.keywords := by
    simp [env, v, environment, extended, Vocabulary.keywords]
  have hwrap : ("wrap", wrap) ∈ env.keywords := List.mem_append_right _ (.tail _ (.head _))
  have houter : env.Visits schema
      ((Position.root schema).property (Hint.data.name 0) "a/b" outer) :=
    .property .root hproperties rfl (.head _) _
  have hvisits : env.Visits schema it :=
    .property (.expansion houter hwrap rfl rfl ⟨0⟩) hproperties rfl (.head _) _
  obtain ⟨-, -, -, hbounded, hyields⟩ := hpositions it hvisits
  have hone : Pointer.Spells ['1'] 1 := ⟨by decide, List.all_eq_true.mp rfl, rfl, by decide⟩
  have htwo : Pointer.Spells ['2'] 2 := ⟨by decide, List.all_eq_true.mp rfl, rfl, by decide⟩
  have hthree : Pointer.Spells ['3'] 3 := ⟨by decide, List.all_eq_true.mp rfl, rfl, by decide⟩
  refine ⟨hstd, hvisits, fun hfound => ?_, fun hfound => ?_, fun p f σ hplace hroot => ?_, ?_⟩
  · have hrest : Pointer.Absolute ['/', 'x'] := (Pointer.isPointer_iff _).mp rfl
    exact absurd ((hbounded.data hthree (.inr hrest) rfl).1.mp hfound) (by decide)
  · exact absurd ((hbounded.name htwo rfl).1.mp hfound) (by decide)
  · have hrest : Pointer.Absolute "/~0/01".toList := (Pointer.isPointer_iff _).mp rfl
    have hpointer : "1/~0/01".toList = ['1'] ++ "/~0/01".toList := rfl
    obtain ⟨e, base, he, hbase, -, hyield⟩ :=
      (hyields p f σ hplace).data hone (.inr hrest) hpointer (by decide)
    refine ⟨e, he, ((hyield ["~", "01"] rfl (by decide)).1 _).mpr ?_⟩
    rw [hroot] at hbase
    obtain rfl := Option.some.inj hbase
    have hspelled : Pointer.Unsigned "01".toList 1 :=
      .inl ⟨by decide, List.all_eq_true.mp rfl, rfl, by decide⟩
    exact .key rfl (.item hspelled rfl (.here _))
  · obtain ⟨c, hc, hschema, -, hrules, hbody⟩ := compile_of_form hstd (rfl : v.form schema = .ok _)
    have hprogram : c.program none = ⟨c.rules, schema, none⟩ := by
      rw [Compiled.program, hschema]
    have hbound : Hint.schema.name 0 ∈ (traceAll (c.program none) c.procedure.body
        (.initial data)).flatMap fun entry => entry.1.slots := by
      rw [← traceAll_stripAll, hbody, hprogram, hrules]
      decide +kernel +zetaReduce
    obtain ⟨⟨op, f⟩, htraced, hn⟩ := List.mem_flatMap.mp hbound
    exact ⟨c, op, f, hc, htraced, hn, (hruns c hstd hc).2 none data op f 0 htraced hn⟩

/-- The slot of the instance is never bound anew. -/
theorem rootData_kept {c : Compiled} (hc : (v.compile schema).1 = .ok c) {context : Option Context}
    {data : Json} {instr : Instr} {f : Frame}
    (hkept : v.Standard ∨ ∀ m op g,
      (.op m op, g) ∈ enteredAll (c.program context) c.procedure.body (.initial data) →
      Ident.rootData ∉ op.slots)
    (hentered : (instr, f) ∈ enteredAll (c.program context) c.procedure.body (.initial data)) :
    f.slots .rootData = some (.location []) := by
  rcases hkept with hstd | hkept
  · obtain ⟨it, σ, -, hplace, -⟩ := sited_of_entered hstd hc hentered
    exact hplace.ready.rootData
  · refine ((linked_enteredAll _ _ _).invariant
      (P := fun g => g.slots .rootData = some (.location [])) (fun entry hmem hroot => ?_) rfl).2 _
      hentered
    obtain ⟨instr, g⟩ := entry
    cases instr with
    | op m op => exact (Op.slots_kept (hkept m op g hmem) _ _).trans hroot
    | branch => exact hroot
    | block => exact hroot

/-- In every run, an absolute pointer that is accepted reads along its tokens, the empty ones left
out. Where the tokens are plain, this is the value that the pointer addresses in the instance. -/
theorem absolute_pointers_address {c : Compiled} (hc : (v.compile schema).1 = .ok c)
    {context : Option Context} {data : Json} {instr : Instr} {f : Frame}
    (hkept : v.Standard ∨ ∀ m op g,
      (.op m op, g) ∈ enteredAll (c.program context) c.procedure.body (.initial data) →
      Ident.rootData ∉ op.slots)
    (hentered : (instr, f) ∈ enteredAll (c.program context) c.procedure.body (.initial data))
    (here : DataLevel) {pointer : String}
    (habsolute : pointer.toList = [] ∨ ∃ rest, pointer.toList = '/' :: rest) :
    (Succeeds (here.resolve pointer) ↔ pointer.toList = [] ∨ Pointer.Absolute pointer.toList) ∧
    ∀ e, here.resolve pointer = .ok e →
      (∃ tokens, pointer.toList = Pointer.written tokens) ∧
      ∀ tokens, pointer.toList = Pointer.written tokens →
        eval (c.program context) f (.deref e) =
          .ofOption (f.root.along (tokens.filter (· ≠ ""))) ∧
        (f.root.Plain tokens →
          eval (c.program context) f (.deref e) = .ofOption (Pointer.resolve pointer f.root)) := by
  have haccepted := here.succeeds_absolute habsolute
  refine ⟨haccepted, fun e he => ⟨Pointer.exists_written (haccepted.mp ⟨e, he⟩), ?_⟩⟩
  intro tokens hwritten
  have heval := DataLevel.eval_absolute (p := c.program context)
    (rootData_kept hc hkept hentered) hwritten he
  refine ⟨heval, fun hplain => ?_⟩
  rw [heval, Json.walk_of_plain hplain, Pointer.resolve_written hwritten]

/-- A token with an escape leads to an array, and an index to an item of it. -/
theorem absolute_pointers_address_item :
    let v := extended { allErrors := true, dataValues := true } []
    let schema : Json :=
      .obj [("properties", .obj [("a", .obj [("minLength", .obj [("$data", .str "/~1/0")])])])]
    let data : Json := .obj [("/", .arr [.ofNat 1]), ("a", .str "xx")]
    ∃ (c : Compiled) (instr : Instr), (v.compile schema).1 = .ok c ∧
      (instr, Frame.initial data) ∈ enteredAll (c.program none) c.procedure.body (.initial data) ∧
      ∀ here : DataLevel, ∃ e, here.resolve "/~1/0" = .ok e ∧
        eval (c.program none) (.initial data) (.deref e) = .json (.ofNat 1) := by
  intro v schema data
  have hstd : v.Standard := extended_standard _ (by simp)
  obtain ⟨c, hc, -, -, -, hbody⟩ := compile_of_form hstd (rfl : v.form schema = .ok _)
  have hfirst : ∃ instr, (instr, Frame.initial data) ∈
      enteredAll (c.program none) (stripAll c.procedure.body) (.initial data) := by
    rw [hbody]
    exact ⟨_, List.mem_cons_self⟩
  obtain ⟨stripped, hfirst⟩ := hfirst
  obtain ⟨instr, hentered, -⟩ := mem_enteredAll_stripAll.mp hfirst
  refine ⟨c, instr, hc, hentered, fun here => ?_⟩
  have habsolute : "/~1/0".toList = [] ∨ ∃ rest, "/~1/0".toList = '/' :: rest := .inr ⟨_, rfl⟩
  obtain ⟨haccepted, hreads⟩ := absolute_pointers_address hc (.inl hstd) hentered here habsolute
  obtain ⟨e, he⟩ := haccepted.mpr (.inr ((Pointer.isPointer_iff _).mp rfl))
  have hplain : data.Plain ["/", "0"] := by
    refine ⟨by decide, fun items heq => ?_, fun w hw => ?_⟩
    · simp [data] at heq
    · obtain rfl := Option.some.inj hw
      exact ⟨by decide, fun _ _ => ⟨by decide, by decide⟩, fun _ _ => trivial⟩
  exact ⟨e, he, (((hreads e he).2 ["/", "0"] rfl).2 hplain).trans rfl⟩

/-- The empty token is left out, so that the limit is taken to be the instance itself. -/
theorem limit_not_addressed :
    let v := extended { allErrors := true, dataValues := true } []
    let schema : Json :=
      .obj [("properties", .obj [("a", .obj [("minLength", .obj [("$data", .str "/")])])])]
    let data : Json := .obj [("", .ofNat 1), ("a", .str "xx")]
    ∃ (c : Compiled) (validation : Validation), (v.compile schema).1 = .ok c ∧
      Pointer.resolve "/" data = some (.ofNat 1) ∧
      (c.validate none data).outcome = .ok validation ∧ validation.valid = false ∧
      validation.errors.length = 1 := by
  intro v schema data
  have hstd : v.Standard := extended_standard _ (by simp)
  obtain ⟨c, hc, hasync, hrun⟩ := run_of_form hstd (rfl : v.form schema = .ok _)
    (extended_plain _ (by simp) _)
  obtain ⟨houtcome, -, hcalls, -⟩ := hrun none data
  have hvalidate : c.validate none data = c.validateAsync none data := by
    rw [Compiled.validate, hasync]
    rfl
  exact ⟨c, _, hc, rfl, (congrArg RunResult.outcome hvalidate).trans houtcome, rfl, rfl⟩

end Validator

end SchemaCompiler
