import Mathlib.Data.List.Forall2
import SchemaCompiler.Proofs.Slots

/-!
# Frames that mirror states

A frame mirrors a state when both hold the same instance and events, and record for record the same
errors. A record may differ in its parameters and its message, which a descriptor may take from any
slot; where the descriptors keep to literals and the value of the keyword, the records are equal.
The first records are equal in any case, up to a number fixed in advance. Code simulates what a form
does when it leads from a frame to one that mirrors the new state, with the same signal and the same
rule calls.
-/

namespace SchemaCompiler

open Run

/-- Equal up to what a descriptor words, and entirely if `exact`. -/
structure ErrorRecord.Alike (exact : Prop) (a b : ErrorRecord) : Prop where
  eq : exact → a = b
  same : { a with params := b.params, message := b.message } = b

namespace ErrorRecord.Alike

variable {exact : Prop} {a b : ErrorRecord}

theorem refl (exact : Prop) (a : ErrorRecord) : a.Alike exact a :=
  ⟨fun _ => rfl, rfl⟩

theorem keyword (h : a.Alike exact b) : a.keyword = b.keyword := by
  rw [← h.same]

theorem schemaPath (h : a.Alike exact b) : a.schemaPath = b.schemaPath := by
  rw [← h.same]

end ErrorRecord.Alike

namespace Run

/-- A frame holds what a state does; its first `n` records are exactly those of the state. -/
structure Mirrors (exact : Prop) (n : Nat) (f : Frame) (st : State) : Prop where
  root : f.root = st.root
  events : f.events = st.events
  errors : List.Forall₂ (ErrorRecord.Alike exact) f.errors st.errors
  kept : f.errors.take n = st.errors.take n
  bound : n ≤ st.errors.length

namespace Mirrors

variable {exact : Prop} {n : Nat} {f g : Frame} {st : State}

theorem length (h : Mirrors exact n f st) : f.errors.length = st.errors.length := h.errors.length_eq

theorem exists_alike (h : Mirrors exact n f st) {record : ErrorRecord}
    (hrecord : record ∈ f.errors) : ∃ own ∈ st.errors, record.Alike exact own := by
  obtain ⟨i, hi, rfl⟩ := List.mem_iff_getElem.mp hrecord
  have hi' : i < st.errors.length := h.length ▸ hi
  exact ⟨st.errors[i], List.getElem_mem hi', h.errors.get hi hi'⟩

theorem errors_eq (h : Mirrors exact n f st) (hexact : exact) : f.errors = st.errors :=
  List.forall₂_eq_eq_eq ▸ h.errors.imp fun _ _ halike => halike.eq hexact

theorem of_slots (h : Mirrors exact n f st) (slots : Ident → Option Val) :
    Mirrors exact n { f with slots } st := ⟨h.root, h.events, h.errors, h.kept, h.bound⟩

theorem bind (h : Mirrors exact n f st) (x : Ident) (v : Val) : Mirrors exact n (f.bind x v) st :=
  h.of_slots _

theorem note (h : Mirrors exact n f st) (event : Event) :
    Mirrors exact n (f.record event) (st.note event) :=
  ⟨h.root, congrArg (· ++ [event]) h.events, h.errors, h.kept, h.bound⟩

theorem called (h : Mirrors exact n f st) (call : RuleCall) (args : RuleArgs) :
    Mirrors exact n (f.record (.ruleCalled args)) (st.called call args) :=
  have hnote := h.note (.ruleCalled args)
  ⟨hnote.root, hnote.events, hnote.errors, hnote.kept, hnote.bound⟩

theorem setRoot (h : Mirrors exact n f st) (root : Json) :
    Mirrors exact n { f with root } { st with root } := ⟨rfl, h.events, h.errors, h.kept, h.bound⟩

theorem push (h : Mirrors exact n f st) {xs ys : List ErrorRecord}
    (hxy : List.Forall₂ (ErrorRecord.Alike exact) xs ys) :
    Mirrors exact n { f with errors := f.errors ++ xs } (st.push ys) where
  root := h.root
  events := h.events
  errors := List.rel_append h.errors hxy
  kept := by
    have hle : n ≤ f.errors.length := h.length ▸ h.bound
    simpa [State.push, List.take_append_of_le_length, hle, h.bound] using h.kept
  bound := by simpa [State.push] using h.bound.trans (Nat.le_add_right _ _)

theorem cut (h : Mirrors exact n f st) {k : Nat} (hk : n ≤ k) :
    Mirrors exact n { f with errors := f.errors.take k }
      { st with errors := st.errors.take k } where
  root := h.root
  events := h.events
  errors := List.forall₂_take k h.errors
  kept := by simpa [List.take_take, Nat.min_eq_left hk] using h.kept
  bound := by simpa using Nat.le_min.mpr ⟨hk, h.bound⟩

theorem clear (h : Mirrors exact 0 f st) :
    Mirrors exact 0 { f with errors := [] } { st with errors := [] } :=
  ⟨h.root, h.events, .nil, rfl, Nat.zero_le _⟩

end Mirrors

/-- Code leads from a frame to one that mirrors a result, with the same signal and calls; if it
goes on, the frame it leads to satisfies `post`. -/
structure Simulates (p : Program) (exact : Prop) (n : Nat) (code : List Instr) (f : Frame)
    (st : State) (r : State × Signal) (post : Frame → Prop) : Prop where
  signal : (execAll p code f).2 = r.2
  mirrors : Mirrors exact n (execAll p code f).1 r.1
  calls : r.1.calls = st.calls ++ callsOf p (traceAll p code f)
  post : r.2 = .next → post (execAll p code f).1

namespace Simulates

variable {p : Program} {exact : Prop} {n : Nat} {code code' : List Instr} {f g : Frame}
  {st : State} {r : State × Signal} {post post' : Frame → Prop}

theorem nil (h : Mirrors exact n f st) (hpost : post f) :
    Simulates p exact n [] f st (st, .next) post :=
  ⟨rfl, h, by simp [callsOf], fun _ => hpost⟩

theorem weaken (h : Simulates p exact n code f st r post)
    (hpost : r.2 = .next → ∀ g, post g → post' g) : Simulates p exact n code f st r post' :=
  { h with post := fun hr => hpost hr _ (h.post hr) }

theorem of_calls (st' : State) (h : Simulates p exact n code f st' r post)
    (hcalls : st'.calls = st.calls) : Simulates p exact n code f st r post :=
  { h with calls := hcalls ▸ h.calls }

theorem ret {b : Bool} (h : Mirrors exact n f st) :
    Simulates p exact n [step (.ret b)] f st (st, .ret b) post :=
  ⟨rfl, h, by simp [callsOf, step, trace], fun hr => by cases hr⟩

theorem append {k : State → State × Signal} (post : Frame → Prop)
    (h : Simulates p exact n code f st r post)
    (hk : ∀ g, post g → Mirrors exact n g r.1 → r.2 = .next →
      Simulates p exact n code' g r.1 (k r.1) post') :
    Simulates p exact n (code ++ code') f st (andThen r k) post' := by
  obtain ⟨st', signal⟩ := r
  have hexec := execAll_append p code code' f
  have htrace := traceAll_append p code code' f
  have hsignal : (execAll p code f).2 = signal := h.signal
  rcases hfirst : execAll p code f with ⟨g, s⟩
  rw [hfirst] at hexec htrace hsignal
  obtain rfl : s = signal := hsignal
  cases s with
  | next =>
    have hg : post g := by simpa [hfirst] using h.post rfl
    have hmirrors : Mirrors exact n g st' := by simpa [hfirst] using h.mirrors
    have hnext := hk g hg hmirrors rfl
    have hcalls : st'.calls = st.calls ++ callsOf p (traceAll p code f) := h.calls
    have hmore := hnext.calls
    rw [hcalls, List.append_assoc, ← callsOf_append] at hmore
    rw [andThen_next] at hexec
    refine ⟨hexec ▸ hnext.signal, hexec ▸ hnext.mirrors, ?_, hexec ▸ hnext.post⟩
    rw [andThen_next, htrace]
    exact hmore
  | ret b =>
    simp only [andThen_ret, List.append_nil] at hexec htrace
    refine ⟨by rw [hexec]; rfl, ?_, ?_, fun hr => by cases hr⟩
    · rw [hexec, ← hfirst]
      exact h.mirrors
    · rw [htrace]
      exact h.calls
  | failed e =>
    simp only [andThen_failed, List.append_nil] at hexec htrace
    refine ⟨by rw [hexec]; rfl, ?_, ?_, fun hr => by cases hr⟩
    · rw [hexec, ← hfirst]
      exact h.mirrors
    · rw [htrace]
      exact h.calls

theorem transfer (h : Simulates p exact n code g st r post)
    (hexec : execAll p code' f = execAll p code g)
    (htrace : callsOf p (traceAll p code' f) = callsOf p (traceAll p code g)) :
    Simulates p exact n code' f st r post :=
  ⟨hexec ▸ h.signal, hexec ▸ h.mirrors, htrace ▸ h.calls, hexec ▸ h.post⟩

theorem cons_op {op : Op} (hop : execOp p op f = (g, .next))
    (hcall : callsOf p [(op, f)] = []) (h : Simulates p exact n code g st r post) :
    Simulates p exact n (step op :: code) f st r post := by
  refine h.transfer ?_ ?_
  · rw [execAll_cons, step, exec, hop, andThen_next]
  · simp only [traceAll, step, trace, exec, hop, callsOf_append, hcall, List.nil_append]

theorem cons_declare {x : Ident} {e : Expr} {mutable : Bool}
    (h : Simulates p exact n code (f.bind x (eval p f e)) st r post) :
    Simulates p exact n (step (.declare x e mutable) :: code) f st r post :=
  cons_op rfl rfl h

theorem cons_assign {x : Ident} {e : Expr}
    (h : Simulates p exact n code (f.bind x (eval p f e)) st r post) :
    Simulates p exact n (step (.assign x e) :: code) f st r post :=
  cons_op rfl rfl h

theorem branch {m : Nat} {cond : Expr} {thenBody elseBody : List Instr} {b : Bool}
    (hcond : (eval p f cond).truthy f.root = b)
    (h : Simulates p exact n (if b then thenBody else elseBody) f st r post) :
    Simulates p exact n [.branch m cond thenBody elseBody] f st r post := by
  refine h.transfer ?_ ?_
  · rw [execAll_singleton, exec, hcond]
    cases b <;> rfl
  · rw [traceAll_singleton, trace, hcond]
    cases b <;> rfl

theorem block {m : Nat} (h : Simulates p exact n code f st r post) :
    Simulates p exact n [.block m code] f st r post :=
  h.transfer (execAll_singleton ..) (by rw [traceAll_singleton, trace])

theorem blocked (h : Simulates p exact n code f st r post) :
    Simulates p exact n (blocked code) f st r post := by
  unfold SchemaCompiler.blocked
  split
  · rename_i hempty
    rw [List.isEmpty_iff.mp hempty] at h
    exact h
  · exact h.block

end Simulates

end Run

end SchemaCompiler
