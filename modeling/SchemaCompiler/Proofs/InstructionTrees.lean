import Mathlib.Data.List.Flatten
import Mathlib.Data.List.Nodup
import Mathlib.Data.List.Perm.Subperm
import SchemaCompiler.Procedure.Listing
import SchemaCompiler.Proofs.Writings
import SchemaCompiler.Proofs.Visits

/-!
# Procedures as trees

An instruction is referred to by its number, from the body of a procedure or from the branches of
another instruction. The references of a builder stand in the bodies of its open scopes and in the
instructions of its pool. Each step moves references, drops some, or makes one new instruction out
of them, whose number is the next one. So a finished procedure is a tree: references lead into the
pool, downwards, and never twice to the same instruction. Following them ends at the leaves.
-/

namespace SchemaCompiler

def Instr.children : Instr → List Instr
  | .op _ _ => []
  | .branch _ _ thenBody elseBody => thenBody ++ elseBody
  | .block _ body => body

/-- The references to instructions of a pool: those held outside and those in the pool. -/
def references (pool : Array Instr) (held : List Instr) : List Instr :=
  held ++ pool.toList.flatMap Instr.children

/-- The instructions of a pool form trees, whose roots are among those held. -/
structure Treelike (pool : Array Instr) (held : List Instr) : Prop where
  /-- Every instruction carries the number it has in the pool. -/
  numbered : ∀ {n : Nat} {i : Instr}, pool[n]? = some i → i.number = n
  /-- Every reference leads to the instruction meant. -/
  found : ∀ i ∈ references pool held, pool[i.number]? = some i
  /-- References lead to smaller numbers. -/
  descending : ∀ i ∈ pool, ∀ j ∈ i.children, j.number < i.number
  /-- No instruction is referred to twice. -/
  once : ((references pool held).map Instr.number).Nodup

def Procedure.IsTree (p : Procedure) : Prop := Treelike p.pool p.body

namespace Treelike

variable {pool : Array Instr} {held held' : List Instr}

theorem empty : Treelike #[] [] where
  numbered h := by cases h
  found _ h := by cases h
  descending _ h := absurd h (Array.not_mem_empty _)
  once := List.nodup_nil

theorem mono (h : Treelike pool held) (hsub : held'.Subperm held) : Treelike pool held' := by
  have hrefs : (references pool held').Subperm (references pool held) :=
    (List.subperm_append_right _).mpr hsub
  obtain ⟨kept, hperm, hkept⟩ := hrefs
  exact { h with
    found := fun i hi => h.found i (hkept.subset (hperm.symm.subset hi))
    once := (hperm.map _).nodup_iff.mp ((hkept.map _).nodup h.once) }

theorem number_lt (h : Treelike pool held) {i : Instr} (hi : i ∈ references pool held) :
    i.number < pool.size :=
  (Array.getElem?_eq_some_iff.mp (h.found i hi)).1

/-- A new instruction takes over the references to its children. -/
theorem push {i : Instr} (h : Treelike pool (i.children ++ held)) (hi : i.number = pool.size) :
    Treelike (pool.push i) (i :: held) := by
  have hperm : (references (pool.push i) (i :: held)).Perm
      (i :: references pool (i.children ++ held)) := by
    simp only [references, Array.toList_push, List.flatMap_append, List.flatMap_singleton,
      List.cons_append, List.append_assoc, List.perm_cons]
    rw [← List.append_assoc]
    exact List.perm_append_comm
  have hkept {j : Instr} (hj : j ∈ references pool (i.children ++ held)) :
      (pool.push i)[j.number]? = some j := by
    rw [Array.getElem?_push_lt (h.number_lt hj)]
    exact (Array.getElem?_eq_getElem _).symm.trans (h.found j hj)
  exact {
    numbered := by
      intro n j hj
      rw [Array.getElem?_push] at hj
      split at hj
      · rename_i hn
        cases hj
        exact hi.trans hn.symm
      · exact h.numbered hj
    found := by
      intro j hj
      rcases List.mem_cons.mp (hperm.subset hj) with rfl | hj
      · rw [hi, Array.getElem?_push_size]
      · exact hkept hj
    descending := by
      intro j hj k hk
      rcases Array.mem_push.mp hj with hj | rfl
      · exact h.descending j hj k hk
      · rw [hi]
        exact h.number_lt (List.mem_append_left _ (List.mem_append_left _ hk))
    once := by
      refine (hperm.map Instr.number).nodup_iff.mpr (List.nodup_cons.mpr ⟨?_, h.once⟩)
      intro hmem
      obtain ⟨j, hj, heq⟩ := List.mem_map.mp hmem
      have hlt := h.number_lt hj
      omega }

end Treelike

/-! ## The references of a builder -/

def Scope.held (scope : Scope) : List Instr :=
  match scope.kind with
  | .branch _ (some thenBody) => thenBody ++ scope.body.instrs
  | _ => scope.body.instrs

namespace Builder

def held (b : Builder) : List Instr := b.root.instrs ++ b.scopes.flatMap Scope.held

def Grows (b : Builder) : Prop := Treelike b.pool b.held

theorem pool_modifyBody (b : Builder) (f : Body → Body) : (b.modifyBody f).pool = b.pool := by
  rcases b with ⟨pool, root, _ | ⟨scope, rest⟩, counters, constants⟩ <;> rfl

theorem held_modifyBody (b : Builder) (i : Instr) :
    (b.modifyBody fun body => { body with instrs := body.instrs ++ [i] }).held.Perm
      (i :: b.held) := by
  rcases b with ⟨pool, root, _ | ⟨⟨kind, body⟩, rest⟩, counters, constants⟩
  · simp [held, modifyBody]
  · have hscope : (Scope.held ⟨kind, { body with instrs := body.instrs ++ [i] }⟩) =
        Scope.held ⟨kind, body⟩ ++ [i] := by
      rcases kind with _ | ⟨cond, _ | thenBody⟩ <;> simp [Scope.held]
    simp only [held, modifyBody, List.flatMap_cons, hscope, List.append_assoc,
      List.singleton_append]
    rw [← List.append_assoc, ← List.append_assoc]
    exact List.perm_middle

/-- An instruction is placed with references that were held for it. -/
theorem grows_place {b : Builder} {make : Nat → Instr} {children : List Instr}
    (hnumber : ∀ n, (make n).number = n) (hchildren : ∀ n, (make n).children = children)
    (h : Treelike b.pool (children ++ b.held)) : (b.place make).Grows := by
  unfold place
  split
  · exact h.mono (List.sublist_append_right ..).subperm
  · have hpush := Treelike.push (i := make b.pool.size) (by rwa [hchildren]) (hnumber _)
    have hheld := hpush.mono (b.held_modifyBody (make b.pool.size)).subperm
    unfold Grows
    dsimp only
    rw [pool_modifyBody]
    exact hheld

theorem Grows.emit {b : Builder} (h : b.Grows) (op : Op) : (b.emit op).Grows :=
  grows_place (fun _ => rfl) (fun _ => rfl) h

theorem Grows.placeScope {b : Builder} {scope : Scope}
    (h : Treelike b.pool (scope.held ++ b.held)) : (b.placeScope scope).Grows := by
  obtain ⟨kind, body⟩ := scope
  rcases kind with _ | ⟨cond, _ | thenBody⟩
  · unfold Builder.placeScope
    dsimp only
    split
    · exact h.mono (List.sublist_append_right ..).subperm
    · exact grows_place (fun _ => rfl) (fun _ => rfl) h
  · exact grows_place (fun _ => rfl) (fun _ => List.append_nil _) h
  · exact grows_place (fun _ => rfl) (fun _ => rfl) h

theorem Grows.closeScope {b : Builder} (h : b.Grows) : b.closeScope.Grows := by
  rcases b with ⟨pool, root, _ | ⟨scope, rest⟩, counters, constants⟩
  · exact h
  · refine Grows.placeScope (Treelike.mono h (List.Perm.subperm ?_))
    simp only [held, List.flatMap_cons]
    exact List.perm_append_comm_assoc ..

theorem Grows.closeIf {b c : Builder} (h : b.Grows) (hc : b.closeIf = .ok c) : c.Grows := by
  unfold Builder.closeIf at hc
  split at hc
  · cases hc
    exact h.closeScope
  · cases hc

theorem Grows.closeBlockWithin {b c : Builder} (h : b.Grows) (count : Nat)
    (hc : closeBlockWithin count b = .ok c) : c.Grows := by
  induction count generalizing b with
  | zero => cases hc
  | succ count ih =>
    rw [Builder.closeBlockWithin] at hc
    split at hc
    · cases hc
    · cases hc
      exact h.closeScope
    · exact ih h.closeScope hc

theorem Grows.turnElse {b c : Builder} (h : b.Grows) (hc : b.turnElse = .ok c) : c.Grows := by
  unfold Builder.turnElse at hc
  split at hc
  · rename_i cond body rest hscopes
    cases hc
    have hheld : ({ b with scopes := { kind := .branch cond (some body.instrs) } :: rest }).held =
        b.held := by
      simp [held, hscopes, Scope.held]
    rw [Grows, hheld]
    exact h
  · cases hc

theorem held_openIf (b : Builder) (cond : Expr) : (b.openIf cond).held = b.held := by
  simp [held, openIf, Scope.held]

theorem held_openBlock (b : Builder) : b.openBlock.held = b.held := by
  simp [held, openBlock, Scope.held]

theorem Grows.markUnreachable {b : Builder} (h : b.Grows) : b.markUnreachable.Grows := by
  rcases b with ⟨pool, root, _ | ⟨⟨kind, body⟩, rest⟩, counters, constants⟩
  · exact h
  · exact h

/-- A request keeps what is built a collection of trees. -/
theorem Grows.perform {b c : Builder} (h : b.Grows) {r : Request} (hc : b.perform r = .ok c) :
    c.Grows := by
  cases r with
  | fresh hint =>
    cases hc
    exact h
  | declareConst hint init =>
    cases hc
    exact Grows.emit (b := { (b.fresh hint).2 with constants := _ }) h _
  | declareLet hint init =>
    cases hc
    exact Grows.emit (b := (b.fresh hint).2) h _
  | declare name init =>
    cases hc
    exact h.emit _
  | assign name value =>
    rw [Builder.perform, assign] at hc
    split at hc
    · cases hc
    · cases hc
      exact h.emit _
  | emit op =>
    cases hc
    exact h.emit op
  | openIf cond =>
    cases hc
    rw [Grows, held_openIf]
    exact h
  | turnElse => exact h.turnElse hc
  | closeIf => exact h.closeIf hc
  | openBlock =>
    cases hc
    rw [Grows, held_openBlock]
    exact h
  | closeBlock => exact h.closeBlockWithin _ hc
  | ret valid =>
    cases hc
    exact (h.emit _).markUnreachable
  | markUnreachable =>
    cases hc
    exact h.markUnreachable

theorem Grows.performAll {rs : List Request} {b c : Builder} (h : b.Grows)
    (hc : performAll rs b = .ok c) : c.Grows := by
  induction rs generalizing b with
  | nil =>
    cases hc
    exact h
  | cons r rs ih =>
    obtain ⟨d, hd, hrest⟩ := exists_of_bind hc
    exact ih (h.perform hd) hrest

theorem Grows.finishWithin {b : Builder} (h : b.Grows) (count : Nat) {p : Procedure}
    (hp : finishWithin count b = .ok p) : p.IsTree := by
  induction count generalizing b with
  | zero =>
    cases hp
    exact Treelike.mono h (List.sublist_append_left ..).subperm
  | succ count ih =>
    rw [Builder.finishWithin] at hp
    split at hp
    · cases hp
    · exact ih h.closeScope hp

end Builder

/-! ## Following references -/

namespace Run

/-- Runs what stands under numbers, one after another, until one does not lead to the next. -/
def runEach (run : Nat → Frame → Option (Frame × Signal)) :
    List Nat → Frame → Option (Frame × Signal)
  | [], f => some (f, .next)
  | n :: ns, f =>
    match run n f with
    | some (g, .next) => runEach run ns g
    | stopped => stopped

/-- Runs the instruction under a number of the pool. References are followed as deep as `depth`
says, and there is no result if that is not deep enough or a reference leads nowhere. -/
def runAt (p : Program) (pool : Array Instr) :
    (depth : Nat) → Nat → Frame → Option (Frame × Signal)
  | 0, _, _ => none
  | depth + 1, n, f =>
    match pool[n]? with
    | none => none
    | some (.op _ op) => some (execOp p op f)
    | some (.branch _ cond thenBody elseBody) =>
      if (eval p f cond).truthy f.root then
        runEach (runAt p pool depth) (thenBody.map Instr.number) f
      else runEach (runAt p pool depth) (elseBody.map Instr.number) f
    | some (.block _ body) => runEach (runAt p pool depth) (body.map Instr.number) f

theorem runEach_eq {p : Program} {run : Nat → Frame → Option (Frame × Signal)} {is : List Instr}
    (h : ∀ i ∈ is, ∀ f, run i.number f = some (exec p i f)) (f : Frame) :
    runEach run (is.map Instr.number) f = some (execAll p is f) := by
  induction is generalizing f with
  | nil => rfl
  | cons i is ih =>
    rw [List.map_cons, runEach, h i List.mem_cons_self, execAll_cons]
    rcases exec p i f with ⟨g, _ | b | e⟩
    · exact ih (fun j hj => h j (List.mem_cons_of_mem _ hj)) g
    · rfl
    · rfl

end Run

def linesEach (lines : Nat → Option (List String)) : List Nat → Option (List String)
  | [] => some []
  | n :: ns => (lines n).bind fun first => (linesEach lines ns).map (first ++ ·)

def linesAt (pool : Array Instr) : (depth : Nat) → Nat → Option (List String)
  | 0, _ => none
  | depth + 1, n =>
    match pool[n]? with
    | none => none
    | some (.op _ op) => some op.lines
    | some (.branch _ cond thenBody elseBody) =>
      (linesEach (linesAt pool depth) (thenBody.map Instr.number)).bind fun thenLines =>
        (linesEach (linesAt pool depth) (elseBody.map Instr.number)).map fun elseLines =>
          ["if (" ++ cond.text ++ ") \x7b"] ++ thenLines.map ("  " ++ ·) ++
            (if elseBody.isEmpty then [] else ["\x7d else \x7b"] ++ elseLines.map ("  " ++ ·)) ++
            ["\x7d"]
    | some (.block _ body) =>
      (linesEach (linesAt pool depth) (body.map Instr.number)).map fun lines =>
        ["\x7b"] ++ lines.map ("  " ++ ·) ++ ["\x7d"]

theorem linesEach_eq {lines : Nat → Option (List String)} {is : List Instr}
    (h : ∀ i ∈ is, lines i.number = some i.lines) :
    linesEach lines (is.map Instr.number) = some (is.flatMap Instr.lines) := by
  induction is with
  | nil => rfl
  | cons i is ih =>
    rw [List.map_cons, linesEach, h i List.mem_cons_self,
      ih fun j hj => h j (List.mem_cons_of_mem _ hj)]
    rfl

theorem Instr.indented_eq (is : List Instr) :
    Instr.indented is = (is.flatMap Instr.lines).map ("  " ++ ·) := by
  induction is with
  | nil => rfl
  | cons i is ih => rw [Instr.indented, ih, List.flatMap_cons, List.map_append]

namespace Treelike

variable {pool : Array Instr} {held : List Instr}

/-- The children of an instruction of the pool stand in the pool, under smaller numbers. -/
theorem child_found (h : Treelike pool held) {i j : Instr} (hi : pool[i.number]? = some i)
    (hj : j ∈ i.children) : j.number < i.number ∧ pool[j.number]? = some j := by
  have hmem : i ∈ pool := Array.mem_of_getElem? hi
  refine ⟨h.descending i hmem j hj, h.found j (List.mem_append_right _ ?_)⟩
  exact List.mem_flatMap.mpr ⟨i, Array.mem_toList_iff.mpr hmem, hj⟩

/-- Following references comes to an end, at a depth that the number bounds. -/
theorem runAt_eq (h : Treelike pool held) (p : Run.Program) {depth : Nat} {i : Instr}
    (hi : pool[i.number]? = some i) (hdepth : i.number < depth) (f : Run.Frame) :
    Run.runAt p pool depth i.number f = some (Run.exec p i f) := by
  induction depth generalizing i f with
  | zero => exact absurd hdepth (Nat.not_lt_zero _)
  | succ depth ih =>
    have hchildren (j : Instr) (hj : j ∈ i.children) (f : Run.Frame) :
        Run.runAt p pool depth j.number f = some (Run.exec p j f) := by
      obtain ⟨hlt, hfound⟩ := h.child_found hi hj
      exact ih hfound (by omega) f
    rw [Run.runAt, hi]
    cases i with
    | op n op => rfl
    | block n body => exact Run.runEach_eq hchildren f
    | branch n cond thenBody elseBody =>
      have hthen := Run.runEach_eq (fun j hj => hchildren j (List.mem_append_left _ hj)) f
      have helse := Run.runEach_eq (fun j hj => hchildren j (List.mem_append_right _ hj)) f
      simp only [hthen, helse, Run.exec]
      split <;> rfl

theorem linesAt_eq (h : Treelike pool held) {depth : Nat} {i : Instr}
    (hi : pool[i.number]? = some i) (hdepth : i.number < depth) :
    linesAt pool depth i.number = some i.lines := by
  induction depth generalizing i with
  | zero => exact absurd hdepth (Nat.not_lt_zero _)
  | succ depth ih =>
    have hchildren (j : Instr) (hj : j ∈ i.children) :
        linesAt pool depth j.number = some j.lines := by
      obtain ⟨hlt, hfound⟩ := h.child_found hi hj
      exact ih hfound (by omega)
    rw [linesAt, hi]
    cases i with
    | op n op => rfl
    | block n body =>
      have hbody : linesEach (linesAt pool depth) (body.map Instr.number) = some _ :=
        linesEach_eq hchildren
      simp only [hbody, Instr.lines, Instr.indented_eq, Option.map_some]
    | branch n cond thenBody elseBody =>
      have hthen := linesEach_eq fun j hj => hchildren j (List.mem_append_left _ hj)
      have helse := linesEach_eq fun j hj => hchildren j (List.mem_append_right _ hj)
      simp only [hthen, helse, Option.bind_some, Option.map_some]
      cases elseBody with
      | nil => simp [Instr.lines, Instr.indented_eq]
      | cons first rest => simp [Instr.lines, Instr.indented_eq]

end Treelike

mutual

def Instr.nodes : Instr → List Instr
  | .op n op => [.op n op]
  | .branch n cond thenBody elseBody =>
    .branch n cond thenBody elseBody :: (nodesAll thenBody ++ nodesAll elseBody)
  | .block n body => .block n body :: nodesAll body
termination_by structural i => i

def nodesAll : List Instr → List Instr
  | [] => []
  | i :: is => i.nodes ++ nodesAll is
termination_by structural is => is

end

mutual

/-- Every node is the instruction itself or a child of a node. -/
theorem Instr.nodes_perm : (i : Instr) → i.nodes.Perm (i :: i.nodes.flatMap Instr.children)
  | .op _ _ => .refl _
  | .branch n cond thenBody elseBody => by
    have hbodies := (nodesAll_perm thenBody).append (nodesAll_perm elseBody)
    simp only [Instr.nodes, List.flatMap_cons, List.flatMap_append, Instr.children,
      List.perm_cons]
    refine hbodies.trans ?_
    simp only [List.append_assoc, List.perm_append_left_iff]
    exact List.perm_append_comm_assoc ..
  | .block n body => by
    simp only [Instr.nodes, List.flatMap_cons, Instr.children, List.perm_cons]
    exact nodesAll_perm body
termination_by structural i => i

theorem nodesAll_perm :
    (is : List Instr) → (nodesAll is).Perm (is ++ (nodesAll is).flatMap Instr.children)
  | [] => .refl _
  | i :: is => by
    have hboth := (Instr.nodes_perm i).append (nodesAll_perm is)
    simp only [nodesAll, List.flatMap_append, List.cons_append]
    refine hboth.trans ?_
    simp only [List.cons_append, List.perm_cons]
    exact List.perm_append_comm_assoc ..
termination_by structural is => is

end

mutual

/-- A run enters nodes, in their order. -/
theorem Run.entered_sublist (p : Program) :
    (i : Instr) → (f : Frame) → ((entered p i f).map Prod.fst).Sublist i.nodes
  | .op _ _, _ => .refl _
  | .branch n cond thenBody elseBody, f => by
    rw [entered, List.map_cons, Instr.nodes]
    refine List.Sublist.cons_cons _ ?_
    split
    · exact (enteredAll_sublist p thenBody f).trans (List.sublist_append_left ..)
    · exact (enteredAll_sublist p elseBody f).trans (List.sublist_append_right ..)
  | .block n body, f => by
    rw [entered, List.map_cons, Instr.nodes]
    exact List.Sublist.cons_cons _ (enteredAll_sublist p body f)
termination_by structural i => i

theorem Run.enteredAll_sublist (p : Program) :
    (is : List Instr) → (f : Frame) → ((enteredAll p is f).map Prod.fst).Sublist (nodesAll is)
  | [], _ => .refl _
  | i :: is, f => by
    rw [enteredAll, List.map_append, nodesAll]
    refine (entered_sublist p i f).append ?_
    split
    · exact enteredAll_sublist p is _
    · exact List.nil_sublist _
termination_by structural is => is

end

namespace Treelike

variable {pool : Array Instr} {held : List Instr}

mutual

theorem nodes_found (h : Treelike pool held) : (i : Instr) → pool[i.number]? = some i →
    ∀ j ∈ i.nodes, pool[j.number]? = some j
  | .op n op, hi, j, hj => by
    obtain rfl := List.mem_singleton.mp hj
    exact hi
  | .branch n cond thenBody elseBody, hi, j, hj => by
    rcases List.mem_cons.mp hj with rfl | hj
    · exact hi
    · rcases List.mem_append.mp hj with hj | hj
      · exact nodesAll_found h thenBody
          (fun k hk => (h.child_found hi (List.mem_append_left _ hk)).2) j hj
      · exact nodesAll_found h elseBody
          (fun k hk => (h.child_found hi (List.mem_append_right _ hk)).2) j hj
  | .block n body, hi, j, hj => by
    rcases List.mem_cons.mp hj with rfl | hj
    · exact hi
    · exact nodesAll_found h body (fun k hk => (h.child_found hi hk).2) j hj
termination_by structural i => i

/-- All nodes below instructions of the pool stand in the pool. -/
theorem nodesAll_found (h : Treelike pool held) : (is : List Instr) →
    (∀ i ∈ is, pool[i.number]? = some i) → ∀ j ∈ nodesAll is, pool[j.number]? = some j
  | [], _, _, hj => by cases hj
  | i :: is, his, j, hj => by
    rcases List.mem_append.mp hj with hj | hj
    · exact nodes_found h i (his i List.mem_cons_self) j hj
    · exact nodesAll_found h is (fun k hk => his k (List.mem_cons_of_mem _ hk)) j hj
termination_by structural is => is

end

/-- References to a number come from greater numbers. -/
theorem count_children (h : Treelike pool held) (k : Nat) {is : List Instr}
    (hpool : ∀ i ∈ is, pool[i.number]? = some i) :
    ((is.flatMap Instr.children).map Instr.number).count k =
      (((is.filter fun i => k < i.number).flatMap Instr.children).map Instr.number).count k := by
  induction is with
  | nil => rfl
  | cons i is ih =>
    have hrest := ih fun j hj => hpool j (List.mem_cons_of_mem _ hj)
    by_cases hi : k < i.number
    · rw [List.filter_cons_of_pos (by simpa using hi)]
      simp only [List.flatMap_cons, List.map_append, List.count_append, hrest]
    · rw [List.filter_cons_of_neg (by simpa using hi)]
      have hnone : (i.children.map Instr.number).count k = 0 := by
        refine List.count_eq_zero_of_not_mem fun hmem => ?_
        obtain ⟨j, hj, rfl⟩ := List.mem_map.mp hmem
        exact hi (h.child_found (hpool i List.mem_cons_self) hj).1
      simp only [List.flatMap_cons, List.map_append, List.count_append, hnone, hrest, Nat.zero_add]

/-- Instructions of the pool in which no number above `k` stands twice refer to `k` as often as the
whole pool does, at most. -/
theorem count_children_le (h : Treelike pool held) {k : Nat} {is : List Instr}
    (hpool : ∀ i ∈ is, pool[i.number]? = some i)
    (hone : ∀ m, k < m → (is.map Instr.number).count m ≤ 1) :
    ((is.flatMap Instr.children).map Instr.number).count k ≤
      ((pool.toList.flatMap Instr.children).map Instr.number).count k := by
  let above := is.filter fun i => k < i.number
  have hnumbers : (above.map Instr.number).Nodup := by
    refine List.nodup_iff_count_le_one.mpr fun m => ?_
    by_cases hm : k < m
    · exact ((List.filter_sublist.map _).count_le m).trans (hone m hm)
    · refine (List.count_eq_zero_of_not_mem fun hmem => ?_).trans_le (Nat.zero_le 1)
      obtain ⟨i, hi, rfl⟩ := List.mem_map.mp hmem
      exact hm (by simpa using (List.mem_filter.mp hi).2)
  have hsubset : above ⊆ pool.toList := fun i hi =>
    Array.mem_toList_iff.mpr (Array.mem_of_getElem? (hpool i (List.mem_filter.mp hi).1))
  obtain ⟨kept, hperm, hkept⟩ := List.subperm_of_subset (List.Nodup.of_map _ hnumbers) hsubset
  rw [h.count_children k hpool, ← ((hperm.flatMap_right _).map _).count_eq k]
  exact ((hkept.flatMap _).map _).count_le k

/-- No node stands at two places. The numbers are gone through downwards: a node has its parents
among the nodes with greater numbers, which are all different. -/
theorem nodes_once (h : Treelike pool held) : ((nodesAll held).map Instr.number).Nodup := by
  have hpool := h.nodesAll_found held fun i hi => h.found i (List.mem_append_left _ hi)
  have hone (gap : Nat) : ∀ k, pool.size ≤ k + gap → ∀ m, k ≤ m →
      ((nodesAll held).map Instr.number).count m ≤ 1 := by
    induction gap with
    | zero =>
      intro k hk m hm
      refine (List.count_eq_zero_of_not_mem fun hmem => ?_).trans_le (Nat.zero_le 1)
      obtain ⟨i, hi, rfl⟩ := List.mem_map.mp hmem
      have hlt := (Array.getElem?_eq_some_iff.mp (hpool i hi)).1
      omega
    | succ gap ih =>
      intro k hk m hm
      rcases Nat.lt_or_eq_of_le hm with hm | rfl
      · exact ih (k + 1) (by omega) m hm
      · have habove := h.count_children_le hpool (ih (k + 1) (by omega))
        calc ((nodesAll held).map Instr.number).count k
            = ((held ++ (nodesAll held).flatMap Instr.children).map Instr.number).count k :=
              ((nodesAll_perm held).map _).count_eq k
          _ ≤ ((references pool held).map Instr.number).count k := by
              simp only [references, List.map_append, List.count_append]
              omega
          _ ≤ 1 := List.nodup_iff_count_le_one.mp h.once k
  exact List.nodup_iff_count_le_one.mpr fun m => hone pool.size 0 (by omega) m (Nat.zero_le m)

end Treelike

namespace Procedure

def runByNumber (p : Procedure) (depth : Nat) (program : Run.Program) (f : Run.Frame) :
    Option (Run.Frame × Run.Signal) :=
  Run.runEach (Run.runAt program p.pool depth) (p.body.map Instr.number) f

def listByNumber (p : Procedure) (depth : Nat) : Option String :=
  (linesEach (linesAt p.pool depth) (p.body.map Instr.number)).map fun lines =>
    String.join (lines.map (· ++ "\n"))

end Procedure

open Builder (Request)

/-- A finished procedure is a finite tree. So to run it by references comes to an end, at a depth
that the size of the pool bounds; a run enters every instruction at most once; and to list it by
references comes to an end as well. -/
theorem procedure_isTree {requests : List Request} {p : Procedure}
    (h : Request.procedure requests = .ok p) :
    p.IsTree ∧
      (∀ program f, p.runByNumber p.pool.size program f = some (Run.execAll program p.body f)) ∧
      (∀ program f,
        ((Run.enteredAll program p.body f).map fun entry => entry.1.number).Nodup) ∧
      p.listByNumber p.pool.size = some p.listing := by
  obtain ⟨b, hb, hfinish⟩ := Builder.exists_of_bind h
  have hempty : Builder.Grows {} := Treelike.empty
  have htree : Treelike p.pool p.body := (hempty.performAll hb).finishWithin _ hfinish
  have hbody (i : Instr) (hi : i ∈ p.body) : p.pool[i.number]? = some i ∧ i.number < p.pool.size :=
    have hmem : i ∈ references p.pool p.body := List.mem_append_left _ hi
    ⟨htree.found i hmem, htree.number_lt hmem⟩
  refine ⟨htree, fun program f => ?_, fun program f => ?_, ?_⟩
  · exact Run.runEach_eq (fun i hi f => htree.runAt_eq program (hbody i hi).1 (hbody i hi).2 f) f
  · have hentered := (Run.enteredAll_sublist program p.body f).map Instr.number
    rw [List.map_map] at hentered
    exact hentered.nodup htree.nodes_once
  · rw [Procedure.listByNumber,
      linesEach_eq fun i hi => htree.linesAt_eq (hbody i hi).1 (hbody i hi).2]
    rfl

/-- Conditionals in both branches, some of them never closed, and code that is dropped. -/
theorem procedure_isTree_nested :
    let requests : List Request :=
      [.openBlock, .openIf .undefined, .ret false, .openBlock, .emit (.ret true), .closeBlock,
        .turnElse, .openIf (.ofBool true), .declareLet "x" .undefined, .closeBlock,
        .openIf .undefined, .ret true]
    ∃ p, Request.procedure requests = .ok p ∧ p.pool.size = 8 ∧ (nodesAll p.body).length = 7 ∧
      p.IsTree ∧ p.listByNumber p.pool.size = some p.listing := by
  intro requests
  have hp : Request.procedure requests = .ok _ := rfl
  obtain ⟨htree, -, -, hlisting⟩ := procedure_isTree hp
  exact ⟨_, hp, rfl, rfl, htree, hlisting⟩

end SchemaCompiler
