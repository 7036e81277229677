import Mathlib.Data.List.Nodup
import SchemaCompiler.Validator

/-!
# The keyword registry

A validator keeps its keywords in evaluation order and the place of each name beside them. It is
indexed if the places are right. Registering takes the next place; removing closes the gap, so that
every later place moves down by one. What is registered after a history of such steps can be told
without places: the built-in keywords never removed, then the others by their last registration.
-/

namespace SchemaCompiler

section Lookup

variable {α : Type} {name other : String}

theorem lookup_cons_if (value : α) (rest : List (String × α)) :
    ((name, value) :: rest).lookup other =
      if other = name then some value else rest.lookup other := by
  rw [List.lookup_cons]
  by_cases h : other = name
  · rw [if_pos h, beq_iff_eq.mpr h]
  · rw [if_neg h, beq_false_of_ne h]

theorem lookup_filter_ne (entries : List (String × α)) :
    (entries.filter fun entry => entry.1 != name).lookup other =
      if other = name then none else entries.lookup other := by
  induction entries with
  | nil => simp
  | cons entry rest ih =>
    obtain ⟨key, value⟩ := entry
    by_cases hkey : key = name
    · subst hkey
      rw [List.filter_cons_of_neg (by simp), ih, lookup_cons_if]
      split <;> rfl
    · rw [List.filter_cons_of_pos (by simpa using hkey), lookup_cons_if, lookup_cons_if, ih]
      by_cases hother : other = key
      · rw [if_pos hother, if_pos hother, if_neg (hother ▸ hkey)]
      · rw [if_neg hother, if_neg hother]

theorem lookup_map_snd {β : Type} (f : α → β) (entries : List (String × α)) :
    (entries.map fun entry => (entry.1, f entry.2)).lookup name = (entries.lookup name).map f := by
  induction entries with
  | nil => rfl
  | cons entry rest ih =>
    rw [List.map_cons, lookup_cons_if, lookup_cons_if, ih]
    split <;> rfl

/-- Where keys are distinct, erasing the place of a key takes that key away and nothing else. -/
theorem eraseIdx_eq_filter {entries : List (String × α)} {place : Nat} {value : α}
    (hdistinct : (entries.map Prod.fst).Nodup) (h : entries[place]? = some (name, value)) :
    entries.eraseIdx place = entries.filter fun entry => entry.1 != name := by
  induction entries generalizing place with
  | nil => cases h
  | cons entry rest ih =>
    obtain ⟨hnot, hrest⟩ := List.nodup_cons.mp hdistinct
    cases place with
    | zero =>
      obtain rfl : entry = (name, value) := Option.some.inj h
      rw [List.eraseIdx_cons_zero, List.filter_cons_of_neg (by simp), List.filter_eq_self.mpr]
      intro other hother
      have hne : other.1 ≠ name := fun heq => hnot (List.mem_map.mpr ⟨other, hother, heq⟩)
      simpa using hne
    | succ place =>
      have hmem : (name, value) ∈ rest := List.mem_of_getElem? h
      have hne : entry.1 ≠ name := fun heq => hnot (heq ▸ List.mem_map_of_mem hmem)
      rw [List.eraseIdx_cons_succ, List.filter_cons_of_pos (by simpa using hne), ih hrest h]

theorem mem_iff_lookup {entries : List (String × α)} {value : α}
    (hdistinct : (entries.map Prod.fst).Nodup) :
    (name, value) ∈ entries ↔ entries.lookup name = some value := by
  induction entries with
  | nil => simp
  | cons entry rest ih =>
    obtain ⟨key, found⟩ := entry
    obtain ⟨hnot, hrest⟩ := List.nodup_cons.mp hdistinct
    rw [List.mem_cons, ih hrest, lookup_cons_if]
    by_cases hkey : name = key
    · have hnone : rest.lookup name ≠ some value := fun hsome =>
        hnot (List.mem_map.mpr ⟨_, (ih hrest).mpr hsome, hkey⟩)
      simp [hkey, hkey ▸ hnone, eq_comm]
    · simp [hkey]

end Lookup

namespace Validator

/-- A name has the place at which it stands, and no other. -/
def Indexed (v : Validator) : Prop :=
  ∀ name place, v.positions.lookup name = some place ↔
    ∃ keyword, v.keywords[place]? = some (name, keyword)

namespace Indexed

variable {v : Validator} {name : String} {keyword : Keyword}

theorem get?_eq_some_iff (h : v.Indexed) :
    v.get? name = some keyword ↔ (name, keyword) ∈ v.keywords := by
  rw [get?, Option.bind_eq_some_iff, List.mem_iff_getElem?]
  constructor
  · rintro ⟨place, hplace, hfound⟩
    obtain ⟨found, hentry⟩ := (h name place).mp hplace
    rw [hentry] at hfound
    obtain rfl : found = keyword := Option.some.inj hfound
    exact ⟨place, hentry⟩
  · rintro ⟨place, hentry⟩
    exact ⟨place, (h name place).mpr ⟨keyword, hentry⟩, by rw [hentry]; rfl⟩

theorem get?_isSome_iff (h : v.Indexed) :
    (v.get? name).isSome ↔ name ∈ v.keywords.map Prod.fst := by
  rw [Option.isSome_iff_exists, List.mem_map]
  constructor
  · rintro ⟨keyword, hfound⟩
    exact ⟨_, h.get?_eq_some_iff.mp hfound, rfl⟩
  · rintro ⟨⟨_, keyword⟩, hmem, rfl⟩
    exact ⟨keyword, h.get?_eq_some_iff.mpr hmem⟩

theorem lookup_eq_none_iff (h : v.Indexed) :
    v.positions.lookup name = none ↔ v.get? name = none := by
  constructor
  · intro hnone
    rw [get?, hnone]
    rfl
  · intro hnone
    rw [Option.eq_none_iff_forall_not_mem]
    intro place hplace
    obtain ⟨keyword, hentry⟩ := (h name place).mp hplace
    rw [h.get?_eq_some_iff.mpr (List.mem_of_getElem? hentry)] at hnone
    cases hnone

theorem names_nodup (h : v.Indexed) : (v.keywords.map Prod.fst).Nodup := by
  rw [List.nodup_iff_getElem?_ne_getElem?]
  intro i j hij hj heq
  rw [List.length_map] at hj
  have hentry (place : Nat) (hplace : place < v.keywords.length) :
      v.positions.lookup v.keywords[place].1 = some place :=
    (h _ place).mpr ⟨_, List.getElem?_eq_getElem hplace⟩
  have hi := hentry i (Nat.lt_trans hij hj)
  rw [List.getElem?_map, List.getElem?_map, List.getElem?_eq_getElem hj,
    List.getElem?_eq_getElem (Nat.lt_trans hij hj)] at heq
  rw [show v.keywords[i].1 = v.keywords[j].1 from Option.some.inj heq, hentry j hj] at hi
  exact absurd (Option.some.inj hi) (by omega)

theorem insert (h : v.Indexed) (habsent : v.positions.lookup name = none) (keyword : Keyword) :
    (v.insert name keyword).Indexed := by
  intro other place
  change ((name, v.keywords.length) :: _).lookup other = _ ↔
    ∃ found, (v.keywords ++ [(name, keyword)])[place]? = some (other, found)
  rw [lookup_cons_if, lookup_filter_ne, List.getElem?_append]
  by_cases hother : other = name
  · -- The new name has the place after all others, and had none before.
    subst hother
    have hnone : ¬ ∃ found, v.keywords[place]? = some (other, found) := by
      rw [← h other place, habsent]
      exact Option.some_ne_none place ∘ Eq.symm
    rw [if_pos rfl, Option.some.injEq]
    split
    next hplace => exact ⟨fun heq => by omega, fun hentry => absurd hentry hnone⟩
    next hplace =>
      rw [List.getElem?_singleton]
      constructor
      · rintro rfl
        exact ⟨keyword, by simp⟩
      · rintro ⟨found, hentry⟩
        split at hentry
        · omega
        · cases hentry
  · rw [if_neg hother, if_neg hother, h other place]
    split
    · rfl
    next hplace =>
      rw [List.getElem?_eq_none (Nat.le_of_not_lt hplace), List.getElem?_singleton]
      split
      · simp [Ne.symm hother]
      · rfl

theorem insertAll (h : v.Indexed) {entries : List (String × Keyword)}
    (hnew : ∀ entry ∈ entries, v.positions.lookup entry.1 = none)
    (hdistinct : (entries.map Prod.fst).Nodup) :
    (entries.foldl (fun v entry => v.insert entry.1 entry.2) v).Indexed := by
  induction entries generalizing v with
  | nil => exact h
  | cons entry rest ih =>
    obtain ⟨hnot, hrest⟩ := List.nodup_cons.mp hdistinct
    refine ih (h.insert (hnew entry List.mem_cons_self) entry.2) (fun next hnext => ?_) hrest
    have hne : next.1 ≠ entry.1 := fun heq => hnot (heq ▸ List.mem_map_of_mem hnext)
    change ((entry.1, v.keywords.length) :: _).lookup next.1 = none
    rw [lookup_cons_if, if_neg hne, lookup_filter_ne, if_neg hne]
    exact hnew next (List.mem_cons_of_mem _ hnext)

end Indexed

theorem new_indexed (options : Options) : (new options).Indexed := by
  refine Indexed.insertAll (fun name place => ?_) (fun _ _ => rfl) (by decide)
  simp

theorem new_keywords (options : Options) : (new options).keywords = Vocabulary.keywords := rfl

/-- The places after a removal: those behind the gap have moved. -/
theorem shift_eq_iff {removed place found : Nat} (hne : found ≠ removed) :
    shift removed found = place ↔ found = if place < removed then place else place + 1 := by
  unfold shift
  split <;> split <;> omega

namespace Indexed

variable {v w : Validator} {name : String} {keyword : Keyword}

/-- A removal closes the gap it leaves. -/
theorem take {place : Nat} (h : v.Indexed) (hentry : v.keywords[place]? = some (name, keyword))
    (hkeywords : w.keywords = v.keywords.eraseIdx place)
    (hpositions : w.positions = (v.positions.filter fun entry => entry.1 != name).map
      fun entry => (entry.1, shift place entry.2)) : w.Indexed := by
  intro other next
  rw [hpositions, lookup_map_snd, lookup_filter_ne, hkeywords]
  by_cases hother : other = name
  · rw [if_pos hother]
    constructor
    · intro hnone
      cases hnone
    · rintro ⟨found, hfound⟩
      rw [eraseIdx_eq_filter h.names_nodup hentry] at hfound
      have hne := (List.mem_filter.mp (List.mem_of_getElem? hfound)).2
      exact absurd hother (by simpa using hne)
  · have hmoved (found : Nat) (hfound : v.positions.lookup other = some found) :
        shift place found = next ↔ found = if next < place then next else next + 1 := by
      refine shift_eq_iff fun heq => hother ?_
      obtain ⟨_, hsame⟩ := (h other found).mp hfound
      rw [heq, hentry] at hsame
      exact (congrArg Prod.fst (Option.some.inj hsame)).symm
    rw [if_neg hother, Option.map_eq_some_iff, List.getElem?_eraseIdx, ← apply_ite (v.keywords[·]?),
      ← h other]
    constructor
    · rintro ⟨found, hfound, hshift⟩
      rw [← (hmoved found hfound).mp hshift, hfound]
    · intro hfound
      exact ⟨_, hfound, (hmoved _ hfound).mpr rfl⟩

/-- What a removal hands back and leaves behind. -/
theorem take?_of_get? (h : v.Indexed) (hfound : v.get? name = some keyword) :
    ∃ w, v.take? name = some (keyword, w) ∧ w.Indexed ∧
      w.keywords = v.keywords.filter fun entry => entry.1 != name := by
  obtain ⟨place, hentry⟩ := List.mem_iff_getElem?.mp (h.get?_eq_some_iff.mp hfound)
  have hplace := (h name place).mpr ⟨keyword, hentry⟩
  have htake : ∃ w, v.take? name = some (keyword, w) ∧
      w.keywords = v.keywords.eraseIdx place ∧
      w.positions = (v.positions.filter fun entry => entry.1 != name).map
        fun entry => (entry.1, shift place entry.2) := by
    rw [take?, hplace, Option.bind_eq_bind, Option.bind_some, hentry]
    exact ⟨_, rfl, rfl, rfl⟩
  obtain ⟨w, hw, hkeywords, hpositions⟩ := htake
  exact ⟨w, hw, h.take hentry hkeywords hpositions,
    hkeywords.trans (eraseIdx_eq_filter h.names_nodup hentry)⟩

theorem take?_of_absent (h : v.Indexed) (habsent : v.get? name = none) : v.take? name = none := by
  rw [take?, h.lookup_eq_none_iff.mpr habsent]
  rfl

theorem get?_eq_of_mem_iff (h : v.Indexed) {found : Option Keyword}
    (hmem : ∀ keyword, (name, keyword) ∈ v.keywords ↔ found = some keyword) :
    v.get? name = found := by
  ext keyword
  rw [← hmem, ← h.get?_eq_some_iff]

theorem get?_filter (h : v.Indexed) (hw : w.Indexed)
    (hkeywords : w.keywords = v.keywords.filter fun entry => entry.1 != name) (other : String) :
    w.get? other = if other = name then none else v.get? other := by
  refine hw.get?_eq_of_mem_iff fun keyword => ?_
  rw [hkeywords, List.mem_filter, ← h.get?_eq_some_iff]
  by_cases hother : other = name <;> simp [hother]

theorem get?_insert (h : v.Indexed) (habsent : v.get? name = none) (keyword : Keyword)
    (other : String) :
    (v.insert name keyword).get? other = if other = name then some keyword else v.get? other := by
  have hinsert := h.insert (h.lookup_eq_none_iff.mpr habsent) keyword
  refine hinsert.get?_eq_of_mem_iff fun found => ?_
  change _ ∈ v.keywords ++ [(name, keyword)] ↔ _
  rw [List.mem_append, ← h.get?_eq_some_iff, List.mem_singleton, Prod.mk.injEq]
  by_cases hother : other = name
  · simp [hother, habsent, eq_comm]
  · simp [hother]

theorem add_eq (h : v.Indexed) (name : String) (keyword : Keyword) :
    v.add name keyword =
      if isKeywordName name = false then .error (.invalidKeywordName name)
      else if (v.get? name).isSome then .error (.duplicateKeyword name)
      else .ok (v.insert name keyword) := by
  have hplace : (v.positions.lookup name).isSome = (v.get? name).isSome := by
    rw [Bool.eq_iff_iff, Option.isSome_iff_ne_none, Option.isSome_iff_ne_none, ne_eq,
      h.lookup_eq_none_iff]
  rw [add, hplace]
  simp

end Indexed

inductive Change where
  | add (name : String) (keyword : Keyword)
  | remove (name : String)

namespace Change

/-- The validator after a step; one that is refused changes nothing. -/
def apply (v : Validator) : Change → Validator
  | .add name keyword => (v.add name keyword).toOption.getD v
  | .remove name => v.remove name

def removes (name : String) : Change → Bool
  | .add .. => false
  | .remove other => name == other

end Change

/-- The validator after a history of steps, the latest step first. -/
def afterChanges (options : Options) : List Change → Validator
  | [] => new options
  | change :: earlier => change.apply (afterChanges options earlier)

def keptBuiltins (history : List Change) : List (String × Keyword) :=
  Vocabulary.keywords.filter fun entry => !history.any (Change.removes entry.1)

/-- The last registration of a name that was accepted, unless the name was removed since: how many
steps came before it, and the definition. -/
def lastAdded : List Change → String → Option (Nat × Keyword)
  | [], _ => none
  | .add name keyword :: earlier, other =>
    if other = name ∧ isKeywordName name = true ∧ lastAdded earlier name = none ∧
        (keptBuiltins earlier).lookup name = none then some (earlier.length, keyword)
    else lastAdded earlier other
  | .remove name :: earlier, other => if other = name then none else lastAdded earlier other

def definition? (history : List Change) (name : String) : Option Keyword :=
  ((lastAdded history name).map Prod.snd).or ((keptBuiltins history).lookup name)

/-- Keywords are listed by age: the built-in ones that were never removed, then the others in the
order of their last registration. -/
def ListedByAge (keywords : List (String × Keyword)) (history : List Change) : Prop :=
  ∃ added : List (Nat × String × Keyword),
    keywords = keptBuiltins history ++ added.map Prod.snd ∧
    added.Pairwise (fun older newer => older.1 < newer.1) ∧
    ∀ time name keyword, (time, name, keyword) ∈ added ↔
      lastAdded history name = some (time, keyword)

section History

variable {v : Validator} {history : List Change}

theorem keptBuiltins_remove (name : String) (history : List Change) :
    keptBuiltins (.remove name :: history) =
      (keptBuiltins history).filter fun entry => entry.1 != name := by
  rw [keptBuiltins, keptBuiltins, List.filter_filter]
  congr 1
  funext entry
  simp [Change.removes, bne]

theorem lastAdded_lt {name : String} {time : Nat} {keyword : Keyword}
    (h : lastAdded history name = some (time, keyword)) : time < history.length := by
  induction history with
  | nil => cases h
  | cons change earlier ih =>
    rw [List.length_cons]
    cases change with
    | add other definition =>
      rw [lastAdded] at h
      split at h
      · cases h
        exact Nat.lt_succ_self _
      · exact Nat.lt_succ_of_lt (ih h)
    | remove other =>
      rw [lastAdded] at h
      split at h
      · cases h
      · exact Nat.lt_succ_of_lt (ih h)

/-- What a name stands for is told by the history. -/
theorem ListedByAge.get?_eq (h : ListedByAge v.keywords history) (hindexed : v.Indexed)
    (name : String) : v.get? name = definition? history name := by
  obtain ⟨added, hkeywords, -, hadded⟩ := h
  have hnodup := hindexed.names_nodup
  rw [hkeywords, List.map_append] at hnodup
  refine hindexed.get?_eq_of_mem_iff fun keyword => ?_
  have hkept : (name, keyword) ∈ keptBuiltins history ↔
      (keptBuiltins history).lookup name = some keyword := mem_iff_lookup hnodup.of_append_left
  have hsince : (name, keyword) ∈ added.map Prod.snd ↔
      ∃ time, lastAdded history name = some (time, keyword) := by
    simp only [List.mem_map, ← hadded]
    constructor
    · rintro ⟨⟨time, entry⟩, hmem, rfl⟩
      exact ⟨time, hmem⟩
    · rintro ⟨time, hmem⟩
      exact ⟨_, hmem, rfl⟩
  rw [hkeywords, List.mem_append, hkept, hsince, definition?]
  cases hlast : lastAdded history name with
  | none => simp
  | some last =>
    obtain ⟨time, found⟩ := last
    have hmem : name ∈ (added.map Prod.snd).map Prod.fst :=
      List.mem_map_of_mem (List.mem_map_of_mem ((hadded time name found).mpr hlast))
    have hnone : (keptBuiltins history).lookup name ≠ some keyword := fun heq =>
      List.disjoint_of_nodup_append hnodup (List.mem_map_of_mem (hkept.mpr heq)) hmem
    simp [hnone]

theorem ListedByAge.remove (h : ListedByAge v.keywords history) (name : String) :
    ListedByAge (v.keywords.filter fun entry => entry.1 != name) (.remove name :: history) := by
  obtain ⟨added, hkeywords, hsorted, hadded⟩ := h
  refine ⟨added.filter fun entry => entry.2.1 != name, ?_, hsorted.filter _,
    fun time other keyword => ?_⟩
  · rw [hkeywords, List.filter_append, keptBuiltins_remove, List.filter_map]
    rfl
  · rw [List.mem_filter, hadded, lastAdded]
    by_cases hother : other = name <;> simp [hother]

theorem ListedByAge.add (h : ListedByAge v.keywords history) {name : String}
    (hname : isKeywordName name = true) (habsent : definition? history name = none)
    (keyword : Keyword) :
    ListedByAge (v.keywords ++ [(name, keyword)]) (.add name keyword :: history) := by
  obtain ⟨added, hkeywords, hsorted, hadded⟩ := h
  obtain ⟨hlast, hkept⟩ :
      lastAdded history name = none ∧ (keptBuiltins history).lookup name = none := by
    simpa [definition?] using habsent
  refine ⟨added ++ [(history.length, name, keyword)], ?_, ?_, fun time other found => ?_⟩
  · rw [hkeywords, List.append_assoc, List.map_append]
    rfl
  · refine List.pairwise_append.mpr
      ⟨hsorted, List.pairwise_singleton .., fun older holder newer hnewer => ?_⟩
    obtain rfl := List.mem_singleton.mp hnewer
    exact lastAdded_lt ((hadded _ _ _).mp holder)
  · rw [List.mem_append, hadded, List.mem_singleton, lastAdded]
    by_cases hother : other = name
    · simp [hother, hname, hlast, hkept, eq_comm]
    · simp [hother]

theorem ListedByAge.refuse (h : ListedByAge v.keywords history) {name : String}
    (hrefused : isKeywordName name = false ∨ (definition? history name).isSome) (keyword : Keyword) :
    ListedByAge v.keywords (.add name keyword :: history) := by
  obtain ⟨added, hkeywords, hsorted, hadded⟩ := h
  refine ⟨added, hkeywords, hsorted, fun time other found => ?_⟩
  rw [hadded, lastAdded, if_neg]
  rintro ⟨-, hname, hlast, hkept⟩
  rcases hrefused with hinvalid | hsome
  · rw [hname] at hinvalid
    cases hinvalid
  · rw [definition?, hlast, hkept] at hsome
    cases hsome

theorem Indexed.remove_of_absent (h : v.Indexed) {name : String} (habsent : v.get? name = none) :
    v.remove name = v := by
  rw [Validator.remove, h.take?_of_absent habsent]
  rfl

theorem Indexed.remove (h : v.Indexed) (name : String) :
    (v.remove name).Indexed ∧
      (v.remove name).keywords = v.keywords.filter fun entry => entry.1 != name := by
  cases hfound : v.get? name with
  | none =>
    rw [h.remove_of_absent hfound]
    refine ⟨h, (List.filter_eq_self.mpr fun entry hentry => ?_).symm⟩
    have hlisted := h.get?_isSome_iff.mpr (List.mem_map_of_mem hentry)
    have hne : entry.1 ≠ name := by
      rintro rfl
      rw [hfound] at hlisted
      cases hlisted
    simpa using hne
  | some keyword =>
    obtain ⟨w, htake, hw, hkeywords⟩ := h.take?_of_get? hfound
    rw [Validator.remove, htake]
    exact ⟨hw, hkeywords⟩

/-- One step keeps the places right and the keywords listed by age. -/
theorem Change.apply_lists (change : Change) (h : v.Indexed)
    (hlisted : ListedByAge v.keywords history) :
    (change.apply v).Indexed ∧ ListedByAge (change.apply v).keywords (change :: history) := by
  cases change with
  | add name keyword =>
    have hget := hlisted.get?_eq h name
    rw [Change.apply, h.add_eq, hget]
    split
    next hname => exact ⟨h, hlisted.refuse (.inl hname) keyword⟩
    next hname =>
      split
      next hsome => exact ⟨h, hlisted.refuse (.inr hsome) keyword⟩
      next hnone =>
        have hnone : definition? history name = none := by simpa using hnone
        exact ⟨h.insert (h.lookup_eq_none_iff.mpr (hget.trans hnone)) keyword,
          hlisted.add (by simpa using hname) hnone keyword⟩
  | remove name =>
    obtain ⟨hindexed, hkeywords⟩ := h.remove name
    refine ⟨hindexed, ?_⟩
    rw [Change.apply, hkeywords]
    exact hlisted.remove name

/-- So does every history of steps. -/
theorem afterChanges_lists (options : Options) (history : List Change) :
    (afterChanges options history).Indexed ∧
      ListedByAge (afterChanges options history).keywords history := by
  induction history with
  | nil =>
    refine ⟨new_indexed options, [], ?_, .nil, fun time name keyword => by simp [lastAdded]⟩
    simp [afterChanges, new_keywords, keptBuiltins]
  | cons change earlier ih => exact change.apply_lists ih.1 ih.2

end History

/-- What a registry is to do after a history of registrations and removals. -/
structure Consistent (v : Validator) (history : List Change) : Prop where
  once : (v.keywords.map Prod.fst).Nodup
  order : ListedByAge v.keywords history
  lookup : ∀ name, v.get? name = definition? history name
  listed : ∀ name, (v.get? name).isSome ↔ name ∈ v.keywords.map Prod.fst
  /-- A place leads to the entry of its name, so never past the end of the list. -/
  inRange : ∀ name place, v.positions.lookup name = some place →
    ∃ keyword, v.keywords[place]? = some (name, keyword)
  /-- A removal hands back the definition and takes away that name only. -/
  removed : ∀ name keyword, v.get? name = some keyword →
    v.take? name = some (keyword, v.remove name) ∧
    (v.remove name).keywords = (v.keywords.filter fun entry => entry.1 != name) ∧
    ∀ other, (v.remove name).get? other = if other = name then none else v.get? other
  unknown : ∀ name, v.get? name = none → v.take? name = none ∧ v.remove name = v
  /-- Registering fails for a name that is no keyword name or is taken, and then changes nothing. -/
  refused : ∀ name keyword,
    ((∃ e, v.add name keyword = .error e) ↔ isKeywordName name = false ∨ (v.get? name).isSome) ∧
    ((∃ e, v.add name keyword = .error e) → (Change.add name keyword).apply v = v)
  accepted : ∀ name keyword w, v.add name keyword = .ok w →
    w.keywords = v.keywords ++ [(name, keyword)] ∧
    ∀ other, w.get? other = if other = name then some keyword else v.get? other
  /-- A compilation finds the definitions that are looked up here. -/
  compiled : ∀ isAsync name, (v.environment isAsync).keywords.lookup name = v.get? name

section Consistency

variable {v : Validator}

theorem Indexed.take?_remove (h : v.Indexed) {name : String} {keyword : Keyword}
    (hfound : v.get? name = some keyword) :
    v.take? name = some (keyword, v.remove name) := by
  obtain ⟨w, htake, -⟩ := h.take?_of_get? hfound
  rw [Validator.remove, htake]
  rfl

theorem Indexed.get?_eq_lookup (h : v.Indexed) (name : String) :
    v.get? name = v.keywords.lookup name :=
  h.get?_eq_of_mem_iff fun _ => mem_iff_lookup h.names_nodup

theorem Indexed.add_eq_error_iff (h : v.Indexed) (name : String) (keyword : Keyword) :
    (∃ e, v.add name keyword = .error e) ↔ isKeywordName name = false ∨ (v.get? name).isSome := by
  rw [h.add_eq]
  by_cases hname : isKeywordName name = false
  · simp [hname]
  · by_cases hsome : (v.get? name).isSome
    · simp [hname, hsome]
    · simp [hname, hsome]

theorem Change.apply_of_error {name : String} {keyword : Keyword}
    (h : ∃ e, v.add name keyword = .error e) : (Change.add name keyword).apply v = v := by
  obtain ⟨e, he⟩ := h
  rw [Change.apply, he]
  rfl

theorem Indexed.of_add (h : v.Indexed) {name : String} {keyword : Keyword} {w : Validator}
    (hadd : v.add name keyword = .ok w) :
    w.keywords = v.keywords ++ [(name, keyword)] ∧
      ∀ other, w.get? other = if other = name then some keyword else v.get? other := by
  rw [h.add_eq] at hadd
  split at hadd
  · cases hadd
  · split at hadd
    · cases hadd
    next hnone =>
      obtain rfl := Except.ok.inj hadd
      exact ⟨rfl, h.get?_insert (by simpa using hnone) keyword⟩

/-- After any history of registrations and removals, accepted or not, the registry lists the names
as the history tells, looks them up as listed, and its next step changes what it says and no more. -/
theorem registry_consistent (options : Options) (history : List Change) :
    (afterChanges options history).Consistent history := by
  obtain ⟨h, hlisted⟩ := afterChanges_lists options history
  exact {
    once := h.names_nodup
    order := hlisted
    lookup := hlisted.get?_eq h
    listed := fun _ => h.get?_isSome_iff
    inRange := fun name place => (h name place).mp
    removed := fun name keyword hfound =>
      ⟨h.take?_remove hfound, (h.remove name).2, h.get?_filter (h.remove name).1 (h.remove name).2⟩
    unknown := fun name habsent => ⟨h.take?_of_absent habsent, h.remove_of_absent habsent⟩
    refused := fun name keyword => ⟨h.add_eq_error_iff name keyword, Change.apply_of_error⟩
    accepted := fun name keyword w hadd => h.of_add hadd
    compiled := fun _ name => (h.get?_eq_lookup name).symm }

/-- A built-in keyword that is removed and registered again comes last. -/
example :
    (afterChanges {} [.add "const" Vocabulary.const, .remove "const"]).keywords.map Prod.fst =
      ["type", "required", "minLength", "maxLength", "properties", "const"] := by decide

end Consistency

end Validator

end SchemaCompiler
