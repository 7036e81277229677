import Mathlib.Data.List.Infix
import SchemaCompiler.Proofs.Collecting

/-!
# Filling messages

A message is meant as a template: it is cut once into placeholders of its parameters and characters
between them, and each placeholder makes way for the text of its parameter. Messages are filled one
parameter after another, and later parameters are also looked for in what earlier ones put in. The
two come to the same, in whatever order the parameters are taken, for a single parameter, and
wherever text that was put in can be no part of a placeholder: names contain no brace, texts close
the braces they open and contain no placeholder of another parameter, and no open brace of the
message stands before a placeholder with no other brace in between.
-/

namespace SchemaCompiler

namespace Text

def isBrace (c : Char) : Bool := c == '\x7b' || c == '\x7d'

def placeholder (key : String) : List Char := '\x7b' :: (key.toList ++ ['\x7d'])

inductive Piece where
  | char (c : Char)
  | hole (key : String)

/-- Cuts a template into placeholders of some names and the characters between them; the first
`skip` characters belong to a placeholder that has been cut out already. -/
def cut (keys : List String) : (skip : Nat) → List Char → List Piece
  | _, [] => []
  | skip + 1, _ :: rest => cut keys skip rest
  | 0, c :: rest =>
    match keys.find? fun key => (placeholder key).isPrefixOf (c :: rest) with
    | some key => .hole key :: cut keys (key.toList.length + 1) rest
    | none => .char c :: cut keys 0 rest

namespace Piece

def raw : Piece → List Char
  | .char c => [c]
  | .hole key => placeholder key

def filled (params : List (String × Json)) : Piece → List Char
  | .char c => [c]
  | .hole key =>
    match Json.lookup key params with
    | some v => v.plainText.toList
    | none => placeholder key

def fill (key : String) (text : List Char) : Piece → List Piece
  | .char c => [.char c]
  | .hole other => if other = key then text.map .char else [.hole other]

end Piece

end Text

open Text

/-- Fills all placeholders of a message at once. -/
def Run.fillAtOnce (template : String) (params : List (String × Json)) : String :=
  String.ofList ((cut (params.map Prod.fst) 0 template.toList).flatMap (Piece.filled params))

theorem Text.forall_open_iff {P : List Char → Prop} {cs : List Char} :
    (∀ opened ∈ cs.tails, opened.head? = some '\x7b' → P opened.tail) ↔
      ∀ rest, '\x7b' :: rest <:+ cs → P rest := by
  constructor
  · intro h rest hrest
    exact h ('\x7b' :: rest) ((List.mem_tails _ _).mpr hrest) rfl
  · intro h opened hopened hhead
    obtain ⟨rest, rfl⟩ := List.head?_eq_some_iff.mp hhead
    exact h rest ((List.mem_tails _ _).mp hopened)

instance Text.decidableForallOpen {P : List Char → Prop} [DecidablePred P] (cs : List Char) :
    Decidable (∀ rest, '\x7b' :: rest <:+ cs → P rest) :=
  decidable_of_iff _ forall_open_iff

/-- No parameter puts a part of another's placeholder into a message. -/
@[mk_iff]
structure Run.Harmless (params : List (String × Json)) : Prop where
  /-- Names contain no brace. -/
  names : ∀ param ∈ params, param.1.toList.any isBrace = false
  /-- After an open brace of a text comes another brace of the text. -/
  closed : ∀ param ∈ params, ∀ rest, '\x7b' :: rest <:+ param.2.plainText.toList →
    rest.any isBrace = true
  /-- A text contains no placeholder of another parameter. -/
  foreign : ∀ param ∈ params, ∀ other ∈ params, other.1 ≠ param.1 →
    ¬ placeholder other.1 <:+: param.2.plainText.toList

instance (params : List (String × Json)) : Decidable (Run.Harmless params) :=
  decidable_of_iff' _ (Run.harmless_iff params)

/-- Text that is put into the message can be no part of a placeholder. -/
@[mk_iff]
structure Run.Separable (template : String) (params : List (String × Json)) : Prop extends
    Harmless params where
  /-- After an open brace of the message, no placeholder stands at the next brace. -/
  apart : ∀ rest, '\x7b' :: rest <:+ template.toList → ∀ param ∈ params,
    ¬ placeholder param.1 <+: rest.dropWhile fun c => !isBrace c

instance (template : String) (params : List (String × Json)) :
    Decidable (Run.Separable template params) :=
  decidable_of_iff' _ (Run.separable_iff template params)

namespace Text

/-! ## Cutting a template -/

theorem placeholder_ne_nil (key : String) : placeholder key ≠ [] := List.cons_ne_nil _ _

theorem placeholder_append (key : String) (after : List Char) :
    placeholder key ++ after = '\x7b' :: (key.toList ++ ['\x7d'] ++ after) := rfl

section Cut

variable {keys : List String}

theorem cut_skip (skipped rest : List Char) :
    cut keys skipped.length (skipped ++ rest) = cut keys 0 rest := by
  induction skipped with
  | nil => rfl
  | cons c skipped ih => simpa [cut] using ih

theorem cut_placeholder {key : String} {after : List Char}
    (h : (keys.find? fun key' => (placeholder key').isPrefixOf (placeholder key ++ after)) =
      some key) :
    cut keys 0 (placeholder key ++ after) = .hole key :: cut keys 0 after := by
  have hlength : key.toList.length + 1 = (key.toList ++ ['\x7d']).length := by simp
  rw [placeholder_append] at h ⊢
  simp only [cut, h]
  rw [hlength, cut_skip]

/-- Induction along the pieces of a template. -/
theorem cut_induct (keys : List String) {P : List Char → Prop} (nil : P [])
    (hole : ∀ key ∈ keys, ∀ after,
      cut keys 0 (placeholder key ++ after) = .hole key :: cut keys 0 after →
        P after → P (placeholder key ++ after))
    (char : ∀ c rest, cut keys 0 (c :: rest) = .char c :: cut keys 0 rest →
      (∀ key ∈ keys, ¬ placeholder key <+: c :: rest) → P rest → P (c :: rest))
    (cs : List Char) : P cs := by
  -- On the length, since a placeholder is passed whole.
  induction hn : cs.length using Nat.strong_induction_on generalizing cs with
  | _ n ih =>
    subst hn
    cases cs with
    | nil => exact nil
    | cons c rest =>
      cases h : keys.find? fun key => (placeholder key).isPrefixOf (c :: rest) with
      | none =>
        refine char c rest (by rw [cut, h]) (fun key hkey => ?_) (ih _ (by simp) rest rfl)
        simpa using List.find?_eq_none.mp h key hkey
      | some key =>
        have hprefix : (placeholder key).isPrefixOf (c :: rest) = true := by
          simpa only using List.find?_some h
        obtain ⟨after, hafter⟩ := List.isPrefixOf_iff_prefix.mp hprefix
        have hlt : after.length < (c :: rest).length := by
          rw [← hafter, List.length_append]
          exact Nat.lt_add_of_pos_left (Nat.zero_lt_succ _)
        rw [← hafter] at h ⊢
        exact hole key (List.mem_of_find?_eq_some h) after (cut_placeholder h) (ih _ hlt after rfl)

/-- The pieces put together are the template. -/
theorem flatMap_raw_cut (cs : List Char) : (cut keys 0 cs).flatMap Piece.raw = cs := by
  induction cs using cut_induct keys with
  | nil => rfl
  | hole key hkey after hcut ih => rw [hcut, List.flatMap_cons, ih, Piece.raw]
  | char c rest hcut hnone ih => rw [hcut, List.flatMap_cons, ih, Piece.raw, List.singleton_append]

end Cut

/-! ## Pieces that later replacements leave alone -/

/-- Behind an open brace and the characters `seen`, no placeholder of the names is completed,
whatever the holes are filled with: the next brace is a character of its own, and if it closes,
then what it closes is none of the names. -/
def Bare (keys : List String) : (seen : List Char) → List Piece → Prop
  | _, [] => True
  | _, .hole _ :: _ => False
  | seen, .char c :: rest =>
    (c = '\x7d' → ∀ key ∈ keys, key.toList ≠ seen) ∧
      (isBrace c = false → Bare keys (seen ++ [c]) rest)

/-- The holes have these names, and no open brace among the characters can begin a placeholder. -/
def Inert (keys : List String) : List Piece → Prop
  | [] => True
  | .hole key :: rest => key ∈ keys ∧ Inert keys rest
  | .char c :: rest => (c = '\x7b' → Bare keys [] rest) ∧ Inert keys rest

/-- None of the names that begin with `seen` is completed and closed by the characters. -/
def Unfinished (keys : List String) (seen cs : List Char) : Prop :=
  ∀ key ∈ keys, ∀ left, key.toList = seen ++ left → ¬ left ++ ['\x7d'] <+: cs

section Inert

variable {keys keys' : List String} {key : String} {seen text : List Char} {pieces : List Piece}

theorem unfinished_nil {rest : List Char}
    (h : ∀ key ∈ keys, ¬ placeholder key <+: '\x7b' :: rest) : Unfinished keys [] rest := by
  rintro key hkey left hleft hprefix
  rw [List.nil_append] at hleft
  exact h key hkey (List.cons_prefix_cons.mpr ⟨rfl, hleft ▸ hprefix⟩)

theorem Unfinished.snoc {c : Char} {cs : List Char} (h : Unfinished keys seen (c :: cs)) :
    Unfinished keys (seen ++ [c]) cs := by
  rintro key hkey left hleft hprefix
  refine h key hkey (c :: left) (by simp [hleft]) ?_
  exact List.cons_prefix_cons.mpr ⟨rfl, hprefix⟩

theorem Unfinished.bare_char {c : Char} {cs : List Char} (h : Unfinished keys seen (c :: cs))
    (hrest : isBrace c = false → Bare keys (seen ++ [c]) pieces) :
    Bare keys seen (.char c :: pieces) := by
  refine ⟨?_, hrest⟩
  rintro rfl key hkey hseen
  exact h key hkey [] (by simp [hseen]) (by simp)

theorem Bare.mono (hsub : keys' ⊆ keys) (h : Bare keys seen pieces) : Bare keys' seen pieces := by
  induction pieces generalizing seen with
  | nil => trivial
  | cons piece rest ih =>
    cases piece with
    | hole other => exact h
    | char c => exact ⟨fun hc key hkey => h.1 hc key (hsub hkey), fun hc => ih (h.2 hc)⟩

/-- Up to the next brace there is nothing to fill. -/
theorem Bare.fill (h : Bare keys seen pieces) (key : String) (text : List Char) :
    Bare keys seen (pieces.flatMap (Piece.fill key text)) := by
  induction pieces generalizing seen with
  | nil => trivial
  | cons piece rest ih =>
    cases piece with
    | hole other => exact h.elim
    | char c => exact ⟨h.1, fun hc => ih (h.2 hc)⟩

theorem Bare.unfinished (h : Bare keys seen pieces)
    (hnames : ∀ key ∈ keys, key.toList.any isBrace = false) :
    Unfinished keys seen (pieces.flatMap Piece.raw) := by
  intro key hkey left hseen
  induction pieces generalizing seen left with
  | nil => simp
  | cons piece rest ih =>
    cases piece with
    | hole other => exact h.elim
    | char c =>
      rw [List.flatMap_cons, Piece.raw, List.singleton_append]
      cases left with
      | nil =>
        rintro ⟨after, hafter⟩
        exact h.1 (List.cons.inj hafter).1.symm key hkey (by simpa using hseen)
      | cons d left =>
        rw [List.cons_append, List.cons_prefix_cons]
        rintro ⟨rfl, hprefix⟩
        have hd : isBrace d = false := by
          have hname := hnames key hkey
          simp only [hseen, List.any_append, List.any_cons, Bool.or_eq_false_iff] at hname
          exact hname.2.1
        exact ih (h.2 hd) left (by simpa using hseen) hprefix

theorem Inert.congr (hsub : keys' ⊆ keys) (hsup : keys ⊆ keys') (h : Inert keys pieces) :
    Inert keys' pieces := by
  induction pieces with
  | nil => trivial
  | cons piece rest ih =>
    cases piece with
    | hole other => exact ⟨hsup h.1, ih h.2⟩
    | char c => exact ⟨fun hc => (h.1 hc).mono hsub, ih h.2⟩

/-- A text that closes its braces keeps the pieces around it from completing a placeholder. -/
theorem bare_text (h : Unfinished keys seen text) (hclosed : text.any isBrace = true)
    (pieces : List Piece) : Bare keys seen (text.map .char ++ pieces) := by
  induction text generalizing seen with
  | nil => simp at hclosed
  | cons c text ih =>
    refine h.bare_char fun hc => ih h.snoc ?_
    rwa [List.any_cons, hc, Bool.false_or] at hclosed

theorem inert_text (hclosed : ∀ rest, '\x7b' :: rest <:+ text → rest.any isBrace = true)
    (hforeign : ∀ key ∈ keys, ¬ placeholder key <:+: text) (h : Inert keys pieces) :
    Inert keys (text.map .char ++ pieces) := by
  induction text with
  | nil => exact h
  | cons c text ih =>
    refine ⟨?_, ih (fun rest hrest => hclosed rest (hrest.trans (List.suffix_cons c text)))
      fun key hkey hwithin => hforeign key hkey (hwithin.trans (List.suffix_cons c text).isInfix)⟩
    rintro rfl
    exact bare_text (unfinished_nil fun key hkey hprefix => hforeign key hkey hprefix.isInfix)
      (hclosed text List.suffix_rfl) pieces

/-- Filling the placeholders of one name leaves pieces that are inert for the other names. -/
theorem Inert.fill (h : Inert (key :: keys) pieces)
    (hclosed : ∀ rest, '\x7b' :: rest <:+ text → rest.any isBrace = true)
    (hforeign : ∀ key ∈ keys, ¬ placeholder key <:+: text) :
    Inert keys (pieces.flatMap (Piece.fill key text)) := by
  induction pieces with
  | nil => trivial
  | cons piece rest ih =>
    rw [List.flatMap_cons]
    cases piece with
    | hole other =>
      rw [Piece.fill]
      split
      · exact inert_text hclosed hforeign (ih h.2)
      next hother => exact ⟨List.mem_of_ne_of_mem hother h.1, ih h.2⟩
    | char c =>
      exact ⟨fun hc => ((h.1 hc).mono (List.subset_cons_self key keys)).fill key text, ih h.2⟩

/-- Placeholders of two names without braces do not stand at one place. -/
theorem eq_of_placeholders_meet {other : String} {after : List Char}
    (hkey : key.toList.any isBrace = false) (hother : other.toList.any isBrace = false)
    (h : placeholder key <+: placeholder other ++ after) : other = key := by
  have hname {name : String} (hname : name.toList.any isBrace = false) (rest : List Char) :
      (name.toList ++ '\x7d' :: rest).takeWhile (fun c => !isBrace c) = name.toList := by
    rw [List.takeWhile_append_of_pos (by simpa using hname)]
    simp [isBrace]
  obtain ⟨rest, hrest⟩ := h
  simp only [placeholder, List.cons_append, List.append_assoc, List.nil_append,
    List.cons.injEq, true_and] at hrest
  apply String.toList_inj.mp
  rw [← hname hother after, ← hname hkey rest, hrest]

/-- Replacing the placeholders of one name fills its holes. -/
theorem replaceChars_raw (h : Inert keys pieces) (hkey : key ∈ keys)
    (hnames : ∀ key ∈ keys, key.toList.any isBrace = false) :
    replaceChars (placeholder key) text 0 (pieces.flatMap Piece.raw) =
      (pieces.flatMap (Piece.fill key text)).flatMap Piece.raw := by
  induction pieces with
  | nil => rfl
  | cons piece rest ih =>
    simp only [List.flatMap_cons, List.flatMap_append]
    rw [← ih (by cases piece <;> exact h.2)]
    cases piece with
    | hole other =>
      rw [Piece.raw, Piece.fill]
      split
      next hother =>
        rw [hother, replaceChars_hit (placeholder_ne_nil key), List.flatMap_map]
        simp [Piece.raw]
      next hother =>
        have hmiss : ¬ placeholder key <+: placeholder other ++ rest.flatMap Piece.raw :=
          fun hprefix =>
            hother (eq_of_placeholders_meet (hnames key hkey) (hnames other h.1) hprefix)
        have hplain : '\x7b' ∉ other.toList ++ ['\x7d'] := by
          rw [List.mem_append, not_or]
          exact ⟨fun hmem => List.any_eq_false.mp (hnames other h.1) _ hmem rfl, by decide⟩
        have hkept : replaceChars (placeholder key) text 0
            (other.toList ++ ['\x7d'] ++ rest.flatMap Piece.raw) =
              other.toList ++ ['\x7d'] ++
                replaceChars (placeholder key) text 0 (rest.flatMap Piece.raw) :=
          replaceChars_plain hplain _
        rw [placeholder_append] at hmiss ⊢
        rw [replaceChars_miss hmiss, hkept]
        simp [Piece.raw, placeholder]
    | char c =>
      rw [Piece.raw, Piece.fill, List.flatMap_singleton, Piece.raw, List.singleton_append]
      refine replaceChars_miss fun hprefix => ?_
      obtain ⟨hc, hafter⟩ := List.cons_prefix_cons.mp hprefix
      exact (h.1 hc.symm).unfinished hnames key hkey key.toList rfl hafter

/-- Characters of a template up to its next brace, where no placeholder stands. -/
theorem bare_cut {cs : List Char}
    (hapart : ∀ key ∈ keys, ¬ placeholder key <+: cs.dropWhile fun c => !isBrace c)
    (h : Unfinished keys seen cs) : Bare keys seen (cut keys 0 cs) := by
  induction cs using cut_induct keys generalizing seen with
  | nil => trivial
  | hole key hkey after hcut ih => exact absurd ⟨after, rfl⟩ (hapart key hkey)
  | char c rest hcut hnone ih =>
    rw [hcut]
    refine h.bare_char fun hc => ih ?_ h.snoc
    rwa [List.dropWhile_cons_of_pos (by simpa using hc)] at hapart

theorem inert_cut {cs : List Char}
    (hapart : ∀ rest, '\x7b' :: rest <:+ cs → ∀ key ∈ keys,
      ¬ placeholder key <+: rest.dropWhile fun c => !isBrace c) :
    Inert keys (cut keys 0 cs) := by
  induction cs using cut_induct keys with
  | nil => trivial
  | hole key hkey after hcut ih =>
    rw [hcut]
    exact ⟨hkey, ih fun rest hrest => hapart rest (hrest.trans (List.suffix_append _ after))⟩
  | char c rest hcut hnone ih =>
    rw [hcut]
    refine ⟨?_, ih fun rest' hrest => hapart rest' (hrest.trans (List.suffix_cons c rest))⟩
    rintro rfl
    exact bare_cut (hapart rest List.suffix_rfl) (unfinished_nil hnone)

end Inert

end Text

/-! ## Filling a message -/

namespace Run

variable {template : String} {params params' : List (String × Json)}

namespace Harmless

theorem subset (h : Harmless params) (hsub : params' ⊆ params) : Harmless params' where
  names param hparam := h.names param (hsub hparam)
  closed param hparam := h.closed param (hsub hparam)
  foreign param hparam other hother := h.foreign param (hsub hparam) other (hsub hother)

theorem key_names (h : Harmless params) :
    ∀ key ∈ params.map Prod.fst, key.toList.any isBrace = false := by
  intro key hkey
  obtain ⟨param, hparam, rfl⟩ := List.mem_map.mp hkey
  exact h.names param hparam

end Harmless

theorem fillMessage_cons (cs : List Char) (key : String) (v : Json)
    (params : List (String × Json)) :
    fillMessage (String.ofList cs) ((key, v) :: params) =
      fillMessage (String.ofList (replaceChars (placeholder key) v.plainText.toList 0 cs))
        params := by
  have hpattern : ("\x7b" ++ key ++ "\x7d").toList = placeholder key := by simp [placeholder]
  change fillMessage (Text.replace ("\x7b" ++ key ++ "\x7d") v.plainText (String.ofList cs))
    params = _
  rw [Text.replace, hpattern, String.toList_ofList]

theorem flatMap_filled_fill (key : String) (v : Json) (params : List (String × Json))
    (pieces : List Piece) :
    (pieces.flatMap (Piece.fill key v.plainText.toList)).flatMap (Piece.filled params) =
      pieces.flatMap (Piece.filled ((key, v) :: params)) := by
  rw [List.flatMap_assoc]
  congr 1
  funext piece
  cases piece with
  | char c => rfl
  | hole other =>
    rw [Piece.fill, Piece.filled, Json.lookup]
    split
    next hother =>
      rw [if_pos hother.symm, List.flatMap_map]
      simp [Piece.filled]
    next hother =>
      rw [if_neg (Ne.symm hother)]
      simp [Piece.filled]

/-- Taking one parameter after another fills inert pieces, by induction on the parameters: what is
left after each is inert for those that follow. -/
theorem fillMessage_raw (hdistinct : (params.map Prod.fst).Nodup) (h : Harmless params)
    {pieces : List Piece} (hinert : Inert (params.map Prod.fst) pieces) :
    fillMessage (String.ofList (pieces.flatMap Piece.raw)) params =
      String.ofList (pieces.flatMap (Piece.filled params)) := by
  induction params generalizing pieces with
  | nil =>
    have hraw : Piece.raw = Piece.filled [] := by
      funext piece
      cases piece <;> rfl
    rw [hraw]
    rfl
  | cons param params ih =>
    obtain ⟨key, v⟩ := param
    obtain ⟨hkey, hdistinct⟩ := List.nodup_cons.mp hdistinct
    have hforeign : ∀ other ∈ params.map Prod.fst, ¬ placeholder other <:+: v.plainText.toList := by
      intro other hother
      obtain ⟨param, hparam, rfl⟩ := List.mem_map.mp hother
      exact h.foreign (key, v) List.mem_cons_self param (List.mem_cons_of_mem _ hparam)
        fun heq => hkey (heq ▸ hother)
    have hfill := hinert.fill (h.closed (key, v) List.mem_cons_self) hforeign
    rw [fillMessage_cons, replaceChars_raw hinert List.mem_cons_self h.key_names,
      ih hdistinct (h.subset (List.subset_cons_self _ _)) hfill, flatMap_filled_fill]

theorem fillMessage_single (template : String) (key : String) (v : Json) :
    fillMessage template [(key, v)] = fillAtOnce template [(key, v)] := by
  have hchars (cs : List Char) : replaceChars (placeholder key) v.plainText.toList 0 cs =
      (cut [key] 0 cs).flatMap (Piece.filled [(key, v)]) := by
    induction cs using cut_induct [key] with
    | nil => rfl
    | hole other hother after hcut ih =>
      obtain rfl := List.mem_singleton.mp hother
      rw [hcut, List.flatMap_cons, replaceChars_hit (placeholder_ne_nil other), ih]
      simp [Piece.filled, Json.lookup]
    | char c rest hcut hnone ih =>
      rw [hcut, List.flatMap_cons, replaceChars_miss (hnone key List.mem_cons_self), ih]
      rfl
  rw [← String.ofList_toList (s := template), fillMessage_cons, hchars, String.ofList_toList]
  rfl

/-- The order of the parameters does not matter where their names are distinct. -/
theorem filled_perm (hdistinct : (params.map Prod.fst).Nodup) (hperm : params'.Perm params) :
    Piece.filled params' = Piece.filled params := by
  have hdistinct' := (hperm.map Prod.fst).nodup_iff.mpr hdistinct
  have hlookup (key : String) : Json.lookup key params' = Json.lookup key params := by
    ext v
    constructor
    · intro hv
      exact Json.lookup_of_mem hdistinct (hperm.mem_iff.mp (Json.mem_of_lookup hv))
    · intro hv
      exact Json.lookup_of_mem hdistinct' (hperm.mem_iff.mpr (Json.mem_of_lookup hv))
  funext piece
  cases piece with
  | char c => rfl
  | hole key => rw [Piece.filled, Piece.filled, hlookup]

theorem separable_nil (template : String) : Separable template [] where
  names := by simp
  closed := by simp
  foreign := by simp
  apart := by simp

theorem Separable.fillMessage_perm (h : Separable template params)
    (hdistinct : (params.map Prod.fst).Nodup) (hperm : params'.Perm params) :
    fillMessage template params' = fillAtOnce template params := by
  have hinert : Inert (params.map Prod.fst) (cut (params.map Prod.fst) 0 template.toList) := by
    refine inert_cut fun rest hrest key hkey => ?_
    obtain ⟨param, hparam, rfl⟩ := List.mem_map.mp hkey
    exact h.apart rest hrest param hparam
  have hkeys := hperm.map Prod.fst
  have hraw := fillMessage_raw (hkeys.nodup_iff.mpr hdistinct) (h.toHarmless.subset hperm.subset)
    (hinert.congr hkeys.subset hkeys.symm.subset)
  rwa [flatMap_raw_cut, String.ofList_toList, filled_perm hdistinct hperm] at hraw

/-- A message is filled at once, in any order of the parameters, if there is at most one or if text
that is put in can be no part of a placeholder. -/
theorem fillMessage_at_once (hdistinct : (params.map Prod.fst).Nodup)
    (h : params.length ≤ 1 ∨ Separable template params) :
    fillMessage template params = fillAtOnce template params ∧
      ∀ params', params'.Perm params →
        fillMessage template params' = fillMessage template params := by
  have hall : ∀ params', params'.Perm params →
      fillMessage template params' = fillAtOnce template params := by
    intro params' hperm
    obtain hone | hseparable := h
    · cases params with
      | nil => exact (separable_nil template).fillMessage_perm hdistinct hperm
      | cons param rest =>
        obtain rfl : rest = [] := List.length_eq_zero_iff.mp (by simpa using hone)
        rw [hperm.eq_singleton]
        exact fillMessage_single template param.1 param.2
    · exact hseparable.fillMessage_perm hdistinct hperm
  have hself := hall params (.refl params)
  exact ⟨hself, fun params' hperm => (hall params' hperm).trans hself.symm⟩

/-- Two parameters whose texts have braces of their own, in either order. -/
theorem fillMessage_at_once_braces :
    let a : String × Json := ("a", .obj [("k", .num (.int 1))])
    let b : String × Json := ("b", .str "\x7bc\x7d")
    Separable "\x7ba\x7d or \x7bb\x7d" [a, b] ∧
      fillMessage "\x7ba\x7d or \x7bb\x7d" [a, b] = "\x7b\"k\":1\x7d or \x7bc\x7d" ∧
      fillMessage "\x7ba\x7d or \x7bb\x7d" [b, a] = "\x7b\"k\":1\x7d or \x7bc\x7d" := by
  intro a b
  have hseparable : Separable "\x7ba\x7d or \x7bb\x7d" [a, b] := by decide +kernel
  obtain ⟨hfilled, hperm⟩ := fillMessage_at_once (by decide) (.inr hseparable)
  have htext : fillAtOnce "\x7ba\x7d or \x7bb\x7d" [a, b] = "\x7b\"k\":1\x7d or \x7bc\x7d" := by
    decide +kernel
  exact ⟨hseparable, hfilled.trans htext, (hperm [b, a] (.swap a b [])).trans (hfilled.trans htext)⟩

/-- A text that contains the placeholder of a parameter that is taken later is replaced in turn. -/
theorem fillMessage_in_turn :
    let a : String × Json := ("a", .str "\x7bb\x7d")
    let b : String × Json := ("b", .str "x")
    fillAtOnce "\x7ba\x7d" [a, b] = "\x7bb\x7d" ∧ fillMessage "\x7ba\x7d" [a, b] = "x" ∧
      fillMessage "\x7ba\x7d" [b, a] = "\x7bb\x7d" := by
  decide

end Run

end SchemaCompiler
