import SchemaCompiler.Proofs.Whereabouts

/-!
# Replacements

A rule can hand back a replacement for the data it was called with. It is written to the place of
the data and nowhere else: the containers around it keep all other entries, and locations beside it
keep their values. From then on every reading of the place finds the replacement, until a rule
replaces the data there, something in it or a container of it. A replacement for the whole instance
is dropped.
-/

namespace SchemaCompiler

open Run

/-- The second container differs from the first in the entry that the segment selects, which is
`old` in the one and `new` in the other. -/
inductive Json.Patch (old new : Json) : Segment → Json → Json → Prop where
  | field {key : String} (before after : List (String × Json))
      (first : key ∉ before.map Prod.fst) :
      Patch old new (.key key) (.obj (before ++ (key, old) :: after))
        (.obj (before ++ (key, new) :: after))
  | item (before after : List Json) :
      Patch old new (.index before.length) (.arr (before ++ old :: after))
        (.arr (before ++ new :: after))

namespace Json

theorem lookup_append_of_not_mem {key : String} {before : List (String × Json)}
    (h : key ∉ before.map Prod.fst) (rest : List (String × Json)) :
    lookup key (before ++ rest) = lookup key rest := by
  induction before with
  | nil => rfl
  | cons field before ih =>
    obtain ⟨k, v⟩ := field
    rw [List.map_cons, List.mem_cons, not_or] at h
    rw [List.cons_append, lookup, if_neg (Ne.symm h.1), ih h.2]

theorem lookup_patched {key other : String} (hne : other ≠ key)
    (before after : List (String × Json)) (old new : Json) :
    lookup other (before ++ (key, new) :: after) =
      lookup other (before ++ (key, old) :: after) := by
  induction before with
  | nil => rw [List.nil_append, List.nil_append, lookup, lookup, if_neg hne.symm, if_neg hne.symm]
  | cons field before ih => rw [List.cons_append, List.cons_append, lookup, lookup, ih]

theorem of_replaceField {key : String} {f : Json → Option Json}
    {fields fields' : List (String × Json)} (h : replaceField key f fields = some fields') :
    ∃ old new, f old = some new ∧ Patch old new (.key key) (.obj fields) (.obj fields') := by
  induction fields generalizing fields' with
  | nil => cases h
  | cons field rest ih =>
    obtain ⟨k, v⟩ := field
    rw [replaceField] at h
    split at h
    next hk =>
      obtain ⟨w, hw, rfl⟩ := Option.map_eq_some_iff.mp h
      subst hk
      exact ⟨v, w, hw, .field [] rest (by simp)⟩
    next hk =>
      obtain ⟨rest', hrest, rfl⟩ := Option.map_eq_some_iff.mp h
      obtain ⟨old, new, hnew, hpatch⟩ := ih hrest
      refine ⟨old, new, hnew, ?_⟩
      cases hpatch with
      | field before after hfirst =>
        exact .field ((k, v) :: before) after (by simpa [Ne.symm hk] using hfirst)

theorem of_replaceItem {f : Json → Option Json} {i : Nat} {items items' : List Json}
    (h : replaceItem f i items = some items') :
    ∃ old new, f old = some new ∧ Patch old new (.index i) (.arr items) (.arr items') := by
  induction items generalizing i items' with
  | nil => cases i <;> cases h
  | cons v rest ih =>
    cases i with
    | zero =>
      obtain ⟨w, hw, rfl⟩ := Option.map_eq_some_iff.mp h
      exact ⟨v, w, hw, .item [] rest⟩
    | succ i =>
      obtain ⟨rest', hrest, rfl⟩ := Option.map_eq_some_iff.mp h
      obtain ⟨old, new, hnew, hpatch⟩ := ih hrest
      refine ⟨old, new, hnew, ?_⟩
      cases hpatch with
      | item before after => exact .item (v :: before) after

namespace Patch

variable {old new v w : Json} {segment : Segment}

theorem get_old (h : Patch old new segment v w) : segment.get? v = some old := by
  cases h with
  | field before after hfirst => simp [Segment.get?, lookup_append_of_not_mem hfirst, lookup]
  | item before after => simp [Segment.get?]

theorem get_new (h : Patch old new segment v w) : segment.get? w = some new := by
  cases h with
  | field before after hfirst => simp [Segment.get?, lookup_append_of_not_mem hfirst, lookup]
  | item before after => simp [Segment.get?]

theorem get_other (h : Patch old new segment v w) {other : Segment} (hne : other ≠ segment) :
    other.get? w = other.get? v := by
  cases h with
  | field before after hfirst =>
    cases other with
    | key name => exact lookup_patched (fun heq => hne (congrArg _ heq)) ..
    | index i => rfl
  | item before after =>
    cases other with
    | key name => rfl
    | index i =>
      have hi : i ≠ before.length := fun heq => hne (congrArg _ heq)
      simp only [Segment.get?]
      rw [List.getElem?_append, List.getElem?_append]
      split
      · rfl
      · rw [List.getElem?_cons, List.getElem?_cons, if_neg (by omega), if_neg (by omega)]

end Patch

end Json

namespace Path

def Apart (p q : Path) : Prop := ¬ p <+: q ∧ ¬ q <+: p

variable {new root replaced : Json}

/-- A replacement below a container changes one entry of it. -/
theorem of_replace?_cons {segment : Segment} {rest : Path}
    (h : replace? new (segment :: rest) root = some replaced) :
    ∃ child child', replace? new rest child = some child' ∧
      Json.Patch child child' segment root replaced := by
  cases segment with
  | key name =>
    cases root with
    | obj fields =>
      obtain ⟨fields', hfields, rfl⟩ := Option.map_eq_some_iff.mp h
      exact Json.of_replaceField hfields
    | _ => cases h
  | index i =>
    cases root with
    | arr items =>
      obtain ⟨items', hitems, rfl⟩ := Option.map_eq_some_iff.mp h
      exact Json.of_replaceItem hitems
    | _ => cases h

theorem resolve_replace?_self {path : Path} (h : replace? new path root = some replaced) :
    resolve replaced path = some new := by
  induction path generalizing root replaced with
  | nil => exact h.symm
  | cons segment rest ih =>
    obtain ⟨child, child', hrest, hpatch⟩ := of_replace?_cons h
    rw [resolve, hpatch.get_new]
    exact ih hrest

/-- Locations beside the one replaced resolve as before. -/
theorem resolve_replace?_of_apart {path q : Path} (h : replace? new path root = some replaced)
    (hapart : path.Apart q) : resolve replaced q = resolve root q := by
  induction path generalizing root replaced q with
  | nil => exact absurd List.nil_prefix hapart.1
  | cons segment rest ih =>
    obtain ⟨child, child', hrest, hpatch⟩ := of_replace?_cons h
    cases q with
    | nil => exact absurd List.nil_prefix hapart.2
    | cons other q =>
      rw [resolve, resolve]
      by_cases heq : other = segment
      · subst heq
        rw [hpatch.get_old, hpatch.get_new]
        refine ih hrest ⟨fun hprefix => hapart.1 ?_, fun hprefix => hapart.2 ?_⟩
        · exact List.cons_prefix_cons.mpr ⟨rfl, hprefix⟩
        · exact List.cons_prefix_cons.mpr ⟨rfl, hprefix⟩
      · rw [hpatch.get_other heq]

/-- Each container on the way to the location keeps all entries but the one that leads there. -/
theorem patch_of_replace? {path q rest : Path} {segment : Segment}
    (h : replace? new path root = some replaced) (hpath : path = q ++ segment :: rest) :
    ∃ v w old now, resolve root q = some v ∧ resolve replaced q = some w ∧
      Json.Patch old now segment v w := by
  subst hpath
  induction q generalizing root replaced with
  | nil =>
    obtain ⟨child, child', -, hpatch⟩ := of_replace?_cons h
    exact ⟨root, replaced, child, child', rfl, rfl, hpatch⟩
  | cons outer q ih =>
    obtain ⟨child, child', hrest, hpatch⟩ := of_replace?_cons h
    obtain ⟨v, w, old, now, hv, hw, hinner⟩ := ih hrest
    refine ⟨v, w, old, now, ?_, ?_, hinner⟩
    · rw [resolve, hpatch.get_old]
      exact hv
    · rw [resolve, hpatch.get_new]
      exact hw

end Path

theorem DataLevel.Made.exists_name {here : DataLevel} {σ : Supply} (h : here.Made σ)
    (hpath : here.path ≠ []) : ∃ n, here.slot = Hint.data.name n := by
  cases here with
  | root => exact absurd rfl hpath
  | property parent slot name =>
    obtain ⟨-, n, -, hslot⟩ := h
    exact ⟨n, hslot⟩

section Calls

variable {p : Program} {f : Frame}

def Run.replacement? (p : Program) (f : Frame) (call : RuleCall) : Option Json :=
  match outcomeOf p call (argsOf p f call) with
  | some (.ok outcome) => outcome.data
  | _ => none

/-- The location of the data that an instruction calls a rule with and gets a replacement for. -/
def Run.target? (p : Program) : Instr × Frame → Option Path
  | (.op _ (.callRule call), f) =>
    match replacement? p f call, f.slots call.data with
    | some _, some (.location path) => some path
    | _, _ => none
  | _ => none

theorem Run.target?_strip (p : Program) (entry : Instr × Frame) :
    target? p (entry.1.strip, entry.2) = target? p entry := by
  obtain ⟨instr, f⟩ := entry
  cases instr with
  | op m op => cases op <;> rfl
  | branch => rfl
  | block => rfl

theorem Run.targets_stripAll (p : Program) (is : List Instr) (f : Frame) :
    (enteredAll p (stripAll is) f).filterMap (target? p) =
      (enteredAll p is f).filterMap (target? p) := by
  rw [enteredAll_stripAll, List.filterMap_map]
  exact List.filterMap_congr fun entry _ => target?_strip p entry

theorem Run.of_target? {p : Program} {entry : Instr × Frame} {path : Path}
    (h : target? p entry = some path) :
    ∃ m call f new, entry = (.op m (.callRule call), f) ∧ replacement? p f call = some new ∧
      f.slots call.data = some (.location path) := by
  unfold target? at h
  split at h
  next m call f =>
    split at h
    next new own hnew hslot => exact ⟨m, call, f, new, rfl, hnew, by rw [hslot, Option.some.inj h]⟩
    next => cases h
  next => cases h

/-- No replacement is handed back for the location, for something in it or for a container of it.
Those for the whole instance are dropped. -/
def Run.Spares (p : Program) (path : Path) (entries : List (Instr × Frame)) : Prop :=
  ∀ entry ∈ entries, ∀ own ∈ target? p entry, own = [] ∨ Path.Apart own path

/-- Only rule calls change the instance, and only those with a replacement. -/
theorem Op.root_kept {op : Op}
    (h : ∀ call, op = .callRule call → replacement? p f call = none) :
    (execOp p op f).1.root = f.root := by
  cases op with
  | callRule call =>
    have hnone := h call rfl
    rw [execOp, Run.callRule]
    unfold replacement? at hnone
    split
    · rfl
    · rfl
    next outcome houtcome =>
      rw [houtcome] at hnone
      dsimp only at hnone ⊢
      rw [bindOutcome, hnone]
      cases call.errors <;> rfl
  | checkSchema keyword rule schema valid =>
    rw [execOp, Run.checkSchema]
    split
    · split
      · rfl
      · dsimp only
        split <;> rfl
    · rfl
  | concatErrors x =>
    rw [execOp]
    split <;> rfl
  | _ => rfl

/-- A replacement goes where the data stands; one for the whole instance is dropped. -/
theorem Mark.root_of_replacement {mark : Mark} {cxt : KeywordContext} {rule : RuleFn} {σ : Supply}
    {new : Json} (hplace : cxt.it.InPlace (mark.afterCall rule σ) f)
    (hnew : replacement? p f (mark.ruleCall cxt rule σ (mark.errorsSlot σ)) = some new) :
    let g := (execOp p (.callRule (mark.ruleCall cxt rule σ (mark.errorsSlot σ))) f).1
    (cxt.it.data.path = [] → g.root = f.root) ∧
      (cxt.it.data.path ≠ [] → cxt.it.data.path.replace? new f.root = some g.root) := by
  intro g
  unfold replacement? at hnew
  split at hnew
  next outcome houtcome =>
    let call := mark.ruleCall cxt rule σ (mark.errorsSlot σ)
    let answered := mark.bindAnswer σ outcome (f.record (.ruleCalled (argsOf p f call)))
    have hexec : g = writeBack p call new answered := by
      simp only [g, execOp, Run.callRule, houtcome]
      rw [bindOutcome_eq, hnew]
    have hanswered : cxt.it.InPlace (mark.afterCall rule σ) answered :=
      (hplace.record _).bindAnswer outcome
    have hroot : answered.root = f.root := bindAnswer_root outcome
    rw [hexec]
    cases hdata : cxt.it.data with
    | root =>
      rw [writeBack_root hanswered.ready hdata]
      exact ⟨fun _ => hroot, fun hne => absurd rfl hne⟩
    | property parent slot name =>
      obtain ⟨replaced, hreplace, -, hwrite⟩ : ∃ replaced,
          cxt.it.data.path.replace? new answered.root = some replaced ∧
          cxt.it.data.Anchored replaced ∧
          writeBack p call new answered = { answered with root := replaced } :=
        writeBack_property hanswered.ready hanswered.anchored hdata (mark.errorsSlot σ) new
      rw [hwrite]
      rw [hroot, hdata] at hreplace
      exact ⟨fun hnil => by simp [DataLevel.path] at hnil, fun _ => hreplace⟩
  next => cases hnew

/-- The slot of a property keeps the location that it was bound to. -/
theorem Op.Fits.data_kept {env : Environment} {it : Position} {σ : Supply} {op : Op} {n : Nat}
    {path : Path} (h : op.Fits env p it f) (hplace : it.InPlace σ f)
    (hbound : f.slots (Hint.data.name n) = some (.location path)) :
    (execOp p op f).1.slots (Hint.data.name n) = some (.location path) := by
  by_cases hmem : Hint.data.name n ∈ op.slots
  · cases h with
    | idle hidle => exact absurd rfl ((hidle.scratch hmem).ne_name (.inr rfl) n)
    | value m occurs computed =>
      exact absurd (List.mem_singleton.mp hmem) (Hint.name_ne_of_hint (by decide) _ _)
    | enter init unbound =>
      rw [← List.mem_singleton.mp hmem, hbound] at unbound
      cases unbound
    | call occurs place => exact absurd rfl ((Mark.scratch_of_mem hmem).ne_name (.inr rfl) n)
    | rebind held =>
      have hslot : Hint.data.name n = it.data.slot := List.mem_singleton.mp hmem
      have hheld := hplace.ready.placed.slot
      rw [← hslot, hbound] at hheld
      rw [hslot, execOp, Frame.bind_self, held, hheld]
  · rw [Op.slots_kept hmem, hbound]

/-- A rule is called with the data of its position, and its replacement goes there. -/
theorem Op.Fits.of_call {env : Environment} {it : Position} {call : RuleCall}
    (h : (Op.callRule call).Fits env p it f) :
    call.data = it.data.slot ∧ f.slots call.data = some (.location it.data.path) ∧
      ∀ new, replacement? p f call = some new →
        (it.data.path = [] → (execOp p (.callRule call) f).1.root = f.root) ∧
        (it.data.path ≠ [] →
          it.data.path.replace? new f.root = some (execOp p (.callRule call) f).1.root) := by
  cases h with
  | idle hidle => exact hidle.elim
  | @call mark rule σ occurs place =>
    have hplace : (mark.context env it σ).it.InPlace (mark.afterCall rule (mark.after σ)) f := place
    exact ⟨rfl, place.ready.placed.slot, fun _ => Mark.root_of_replacement hplace⟩

/-- A location keeps its value as long as nothing is written to it, into it or around it. -/
theorem Op.Fits.value_kept {env : Environment} {it : Position} {op : Op} {path : Path} {v : Json}
    (h : op.Fits env p it f) (hv : Path.resolve f.root path = some v)
    {m : Nat} (hspares : ∀ own ∈ target? p (.op m op, f), own = [] ∨ Path.Apart own path) :
    Path.resolve (execOp p op f).1.root path = some v := by
  by_cases hnone : ∀ call, op = .callRule call → replacement? p f call = none
  · rw [Op.root_kept hnone, hv]
  · obtain ⟨call, hcall⟩ := not_forall.mp hnone
    obtain ⟨rfl, hne⟩ := Classical.not_imp.mp hcall
    obtain ⟨new, hnew⟩ := Option.ne_none_iff_exists'.mp hne
    obtain ⟨-, hslot, hwrites⟩ := h.of_call
    obtain ⟨hroot, hbelow⟩ := hwrites new hnew
    have hdisjoint := hspares it.data.path (by simp [target?, hnew, hslot])
    by_cases hpath : it.data.path = []
    · rw [hroot hpath, hv]
    · rw [Path.resolve_replace?_of_apart (hbelow hpath) (hdisjoint.resolve_left hpath), hv]

end Calls

/-- The value is found at the location: in the instance, through the slot of the data, as the data
of rule calls, and through every expression that leads there. -/
structure Run.Frame.Holds (p : Program) (f : Frame) (slot : Ident) (path : Path) (v : Json) :
    Prop where
  found : Path.resolve f.root path = some v
  read : f.read? slot = some v
  data : ∀ call : RuleCall, call.data = slot → (argsOf p f call).data = v
  location : eval p f (.var slot) = .location path
  deref : ∀ e, eval p f e = .location path → eval p f (.deref e) = .json v

theorem Run.Frame.holds_of_slot (p : Program) {f : Frame} {n : Nat} {path : Path} {v : Json}
    (hslot : f.slots (Hint.data.name n) = some (.location path))
    (hv : Path.resolve f.root path = some v) : f.Holds p (Hint.data.name n) path v := by
  have hread : f.read? (Hint.data.name n) = some v := by
    rw [Frame.read?, hslot]
    exact hv
  refine ⟨hv, hread, fun call hdata => ?_, ?_, fun e he => ?_⟩
  · simp [argsOf, hdata, hread]
  · rw [Frame.eval_name, hslot]
    rfl
  · rw [eval, he, Val.derefValue_location, hv]
    rfl

namespace Validator

variable {v : Validator} {schema : Json} {c : Compiled} {context : Option Context} {data : Json}

/-- From one entry of a run to a later one, data that nothing is written to is kept. -/
theorem holds_of_linked (hstd : v.Standard) (hc : (v.compile schema).1 = .ok c)
    {entries : List (Instr × Frame)} {f g : Frame} {n : Nat} {path : Path} {value : Json}
    (hentries : entries ⊆ enteredAll (c.program context) c.procedure.body (.initial data))
    (hlinked : Linked (c.program context) f entries g)
    (hspares : Spares (c.program context) path entries)
    (hslot : f.slots (Hint.data.name n) = some (.location path))
    (hvalue : Path.resolve f.root path = some value) :
    g.Holds (c.program context) (Hint.data.name n) path value := by
  let held (k : Frame) : Prop := k.slots (Hint.data.name n) = some (.location path) ∧
    Path.resolve k.root path = some value
  have hkeeps : ∀ entry ∈ entries, held entry.2 → held (left (c.program context) entry) := by
    rintro ⟨instr, k⟩ hmem ⟨hslot, hvalue⟩
    obtain ⟨it, σ, -, hplace, hop⟩ := sited_of_entered hstd hc (hentries hmem)
    cases instr with
    | op m op =>
      have hfits := hop 0 op rfl
      exact ⟨hfits.data_kept hplace hslot, hfits.value_kept hvalue (hspares _ hmem)⟩
    | branch => exact ⟨hslot, hvalue⟩
    | block => exact ⟨hslot, hvalue⟩
  obtain ⟨hslot, hvalue⟩ := (hlinked.invariant hkeeps ⟨hslot, hvalue⟩).1
  exact Frame.holds_of_slot _ hslot hvalue

/-- A replacement is written to the place of the data and nowhere else, and is what is read there
from then on, until a rule replaces the data there, something in it or a container of it. For the
whole instance it is dropped. -/
theorem replacement_seen (hstd : v.Standard) (hc : (v.compile schema).1 = .ok c)
    {before after : List (Instr × Frame)} {m : Nat} {call : RuleCall} {f : Frame} {new : Json}
    (hentered : enteredAll (c.program context) c.procedure.body (.initial data) =
      before ++ (.op m (.callRule call), f) :: after)
    (hnew : replacement? (c.program context) f call = some new) :
    let p := c.program context
    let g := (execOp p (.callRule call) f).1
    ∃ path, f.slots call.data = some (.location path) ∧
      (path = [] → g.root = f.root) ∧
      (path ≠ [] →
        Path.resolve g.root path = some new ∧
        (∀ q, path.Apart q → Path.resolve g.root q = Path.resolve f.root q) ∧
        (∀ q segment rest, path = q ++ segment :: rest → ∃ v w old now,
          Path.resolve f.root q = some v ∧ Path.resolve g.root q = some w ∧
          Json.Patch old now segment v w) ∧
        ∀ between later rest, after = between ++ later :: rest → Spares p path between →
          later.2.Holds p call.data path new) := by
  intro p g
  have hmem : (Instr.op m (.callRule call), f) ∈
      enteredAll (c.program context) c.procedure.body (.initial data) := by
    rw [hentered]
    exact List.mem_append_right _ List.mem_cons_self
  obtain ⟨it, σ, -, hplace, hop⟩ := sited_of_entered hstd hc hmem
  obtain ⟨hdata, hslot, hwrites⟩ := (hop 0 _ rfl).of_call
  obtain ⟨hroot, hbelow⟩ := hwrites new hnew
  refine ⟨it.data.path, hslot, hroot, fun hpath => ?_⟩
  have hreplace := hbelow hpath
  have hwritten := Path.resolve_replace?_self hreplace
  refine ⟨hwritten, fun q => Path.resolve_replace?_of_apart hreplace,
    fun q segment rest => Path.patch_of_replace? hreplace, ?_⟩
  rintro between later rest rfl hspares
  obtain ⟨n, hname⟩ := hplace.ready.made.exists_name hpath
  rw [hdata, hname] at hslot ⊢
  -- the entries between lead from the frame after the call to the later one
  have hlinked := linked_enteredAll p c.procedure.body (.initial data)
  rw [hentered, linked_append] at hlinked
  obtain ⟨-, -, -, hlinked⟩ := hlinked
  obtain ⟨k, hlinked, rfl, -⟩ := linked_append.mp hlinked
  have hsub : between ⊆ enteredAll p c.procedure.body (.initial data) := fun entry hmem => by
    rw [hentered]
    exact List.mem_append_right _ (.tail _ (List.mem_append_left _ hmem))
  exact holds_of_linked hstd hc hsub hlinked hspares ((hop 0 _ rfl).data_kept hplace hslot) hwritten

/-- The replacement of a property is seen by all that follows, also by a pointer from outside. -/
theorem replacement_seen_outside :
    let inner : Keyword := {
      kind := .rule (.sync fun _ => { valid := true, data := some (.str "v") })
      modifying := true }
    let seen : Keyword := {
      kind := .rule (.sync fun _ => { valid := true })
      dataDependent := true }
    let v := extended { allErrors := true, dataValues := true } [("inner", inner), ("seen", seen)]
    let schema : Json := .obj [
      ("properties", .obj [("a", .obj [("inner", .bool true)])]),
      ("seen", .obj [("$data", .str "/a")])]
    let data : Json := .obj [("a", .str "x"), ("b", .null)]
    ∃ (c : Compiled) (before after : List (Instr × Frame)) (m : Nat) (call : RuleCall) (f : Frame)
      (new : Json), (v.compile schema).1 = .ok c ∧
      enteredAll (c.program none) c.procedure.body (.initial data) =
        before ++ (.op m (.callRule call), f) :: after ∧
      f.slots call.data = some (.location [.key "a"]) ∧
      replacement? (c.program none) f call = some new ∧
      ∀ between later rest, after = between ++ later :: rest →
        later.2.Holds (c.program none) call.data [.key "a"] new := by
  intro inner seen v schema data
  have hstd : v.Standard := extended_standard _ (by simp [inner, seen])
  obtain ⟨c, hc, hschema, -, hrules, hbody⟩ := compile_of_form hstd (rfl : v.form schema = .ok _)
  have hprogram : c.program none = ⟨c.rules, schema, none⟩ := by
    rw [Compiled.program, hschema]
  have htargets : (enteredAll (c.program none) c.procedure.body (.initial data)).filterMap
      (target? (c.program none)) = [[.key "a"]] := by
    rw [← targets_stripAll, hbody, hprogram, hrules]
    decide +kernel +zetaReduce
  obtain ⟨before, entry, after, hentered, -, htarget, hnone⟩ :=
    List.filterMap_eq_cons_iff.mp htargets
  obtain ⟨m, call, f, new, rfl, hnew, hslot⟩ := of_target? htarget
  obtain ⟨path, hpath, -, hbelow⟩ := replacement_seen hstd hc hentered hnew
  obtain rfl : path = [.key "a"] := Val.location.inj (Option.some.inj (hpath.symm.trans hslot))
  refine ⟨c, before, after, m, call, f, new, hc, hentered, hslot, hnew, ?_⟩
  intro between later rest hafter
  refine (hbelow (by simp)).2.2.2 between later rest hafter fun entry hmem own hown => ?_
  have hspared := List.filterMap_eq_nil_iff.mp hnone entry (hafter ▸ List.mem_append_left _ hmem)
  rw [hspared] at hown
  cases hown

/-- A container is replaced after something in it: what was written there before is lost. -/
theorem replacement_lost_in_container :
    let inner : Keyword := {
      kind := .rule (.sync fun _ => { valid := true, data := some (.str "v") })
      modifying := true }
    let outer : Keyword := {
      kind := .rule (.sync fun _ => { valid := true, data := some (.obj [("b", .str "w")]) })
      modifying := true }
    let seen : Keyword := {
      kind := .rule (.sync fun _ => { valid := true })
      dataDependent := true }
    let v := extended { allErrors := true, dataValues := true }
      [("inner", inner), ("outer", outer), ("seen", seen)]
    let schema : Json := .obj [
      ("properties", .obj [("a", .obj [
        ("outer", .bool true), ("properties", .obj [("b", .obj [("inner", .bool true)])])])]),
      ("seen", .obj [("$data", .str "/a/b")])]
    let data : Json := .obj [("a", .obj [("b", .str "x")])]
    ∃ c : Compiled, (v.compile schema).1 = .ok c ∧
      (c.calls none data).map (fun entry => (entry.2.instancePath, entry.2.schema)) =
        [("/a/b", some (.bool true)), ("/a", some (.bool true)), ("", some (.str "w"))] ∧
      (c.calls none data).map (fun entry => outcomeOf (c.program none) entry.1 entry.2) =
        [some (.ok { valid := true, data := some (.str "v") }),
          some (.ok { valid := true, data := some (.obj [("b", .str "w")]) }),
          some (.ok { valid := true })] := by
  intro inner outer seen v schema data
  have hstd : v.Standard := extended_standard _ (by simp [inner, outer, seen])
  obtain ⟨c, hc, -, hrun⟩ := run_of_form hstd (rfl : v.form schema = .ok _)
    (extended_plain _ (by simp [inner, outer, seen]) _)
  obtain ⟨-, -, hcalls, hprogram⟩ := hrun none data
  refine ⟨c, hc, ?_, ?_⟩
  · rw [hcalls]
    rfl
  · rw [hcalls, hprogram]
    rfl

end Validator

end SchemaCompiler
