import Mathlib.Data.List.TakeWhile
import SchemaCompiler.Compile.Session

/-!
# Names made by the compiler

The compiler makes names from five hints. None of them contains a digit, so a name determines its
hint and its number. A supply tells how many names and rules were made so far; a name is issued
when the supply is past it, and the next name of a hint never is.
-/

namespace SchemaCompiler

theorem eq_of_toDigits_eq {n m : Nat} (h : Nat.toDigits 10 n = Nat.toDigits 10 m) : n = m :=
  calc n = Nat.ofDigitChars 10 (Nat.toDigits 10 n) 0 := Nat.ofDigitChars_ten_toDigits.symm
    _ = Nat.ofDigitChars 10 (Nat.toDigits 10 m) 0 := by rw [h]
    _ = m := Nat.ofDigitChars_ten_toDigits

namespace Ident

def numbered (text : String) (n : Nat) : Ident := ⟨text ++ n.repr⟩

/-- The slots every procedure shares contain no digit. -/
theorem numbered_not_reserved (text : String) (n : Nat) : numbered text n ∉ reserved := by
  intro hmem
  have hall : (reserved.all fun x => x.text.toList.all fun c => !c.isDigit) = true := rfl
  have hdigit : ∀ x ∈ reserved, ∀ c ∈ x.text.toList, c.isDigit = false := fun x hx c hc => by
    simpa using List.all_eq_true.mp (List.all_eq_true.mp hall x hx) c hc
  obtain ⟨c, cs, hd⟩ := List.exists_cons_of_ne_nil (Nat.toDigits_ne_nil (b := 10) (n := n))
  have hc : c ∈ (numbered text n).text.toList := by
    simp [numbered, String.toList_append, Nat.toList_repr, hd]
  have hyes : c.isDigit = true :=
    Nat.isDigit_of_mem_toDigits (by decide) (by decide) (hd ▸ List.mem_cons_self)
  simp [hdigit _ hmem c hc] at hyes

end Ident

/-- What the compiler makes names from. -/
inductive Hint where
  | errs
  | schema
  | data
  | valid
  | ruleErrs
  deriving DecidableEq

namespace Hint

def text : Hint → String
  | .errs => "_errs"
  | .schema => "schema"
  | .data => "data"
  | .valid => "valid"
  | .ruleErrs => "ruleErrs"

def name (hint : Hint) (n : Nat) : Ident := ⟨hint.text ++ n.repr⟩

theorem text_injective {h k : Hint} (heq : h.text.toList = k.text.toList) : h = k := by
  cases h <;> cases k <;> first | rfl | exact absurd heq (by decide)

theorem text_noDigit (h : Hint) : ∀ c ∈ h.text.toList, (!c.isDigit) = true :=
  List.all_eq_true.mp (by cases h <;> rfl)

private theorem takeWhile_digits (n : Nat) :
    (Nat.toDigits 10 n).takeWhile (fun c => !c.isDigit) = [] := by
  cases hd : Nat.toDigits 10 n with
  | nil => rfl
  | cons c cs =>
    have hc : c.isDigit = true :=
      Nat.isDigit_of_mem_toDigits (by decide) (by decide) (hd ▸ List.mem_cons_self)
    simp [List.takeWhile, hc]

/-- The part of a name before its number is the hint. -/
theorem takeWhile_name (h : Hint) (n : Nat) :
    (h.name n).text.toList.takeWhile (fun c => !c.isDigit) = h.text.toList := by
  rw [name, String.toList_append, Nat.toList_repr,
    List.takeWhile_append_of_pos (text_noDigit h), takeWhile_digits, List.append_nil]

theorem name_inj {h k : Hint} {n m : Nat} (heq : h.name n = k.name m) : h = k ∧ n = m := by
  have hk : h = k := by
    apply text_injective
    rw [← takeWhile_name h n, ← takeWhile_name k m, heq]
  subst hk
  have hl : (h.name n).text.toList = (h.name m).text.toList := by rw [heq]
  simp only [name, String.toList_append, Nat.toList_repr] at hl
  exact ⟨rfl, eq_of_toDigits_eq (List.append_cancel_left hl)⟩

theorem name_ne_of_hint {h k : Hint} (hne : h ≠ k) (n m : Nat) : h.name n ≠ k.name m :=
  fun heq => hne (name_inj heq).1

theorem name_not_reserved (h : Hint) (n : Nat) : h.name n ∉ Ident.reserved :=
  Ident.numbered_not_reserved h.text n

end Hint

/-- How many names were made from each hint but that of the snapshots, and the rules registered. -/
structure Supply where
  schema : Nat := 0
  data : Nat := 0
  valid : Nat := 0
  ruleErrs : Nat := 0
  rules : RuleTable := {}

namespace Supply

/-- The number of the next name of a hint, `e` being that of the snapshots. -/
def count (σ : Supply) (e : Nat) : Hint → Nat
  | .errs => e
  | .schema => σ.schema
  | .data => σ.data
  | .valid => σ.valid
  | .ruleErrs => σ.ruleErrs

def register (σ : Supply) (rule : Rule) : Supply := { σ with rules := ⟨σ.rules.rules ++ [rule]⟩ }

def enterProperty (σ : Supply) : Supply := { σ with valid := σ.valid + 1, data := σ.data + 1 }

def enterExpansion (σ : Supply) (schema : Json) : Supply :=
  { σ.register (.schema schema) with valid := σ.valid + 1 }

def nextRule (σ : Supply) : RuleRef := ⟨σ.rules.size⟩

/-- A slot every procedure shares, or a name that was made already. -/
def Issued (σ : Supply) (e : Nat) (x : Ident) : Prop :=
  x ∈ Ident.reserved ∨ ∃ h n, n < σ.count e h ∧ x = h.name n

structure Le (σ τ : Supply) : Prop where
  schema : σ.schema ≤ τ.schema
  data : σ.data ≤ τ.data
  valid : σ.valid ≤ τ.valid
  ruleErrs : σ.ruleErrs ≤ τ.ruleErrs
  rules : σ.rules.rules <+: τ.rules.rules

theorem Le.refl (σ : Supply) : σ.Le σ :=
  ⟨Nat.le_refl _, Nat.le_refl _, Nat.le_refl _, Nat.le_refl _, List.prefix_rfl⟩

theorem Le.trans {σ τ υ : Supply} (h : σ.Le τ) (k : τ.Le υ) : σ.Le υ :=
  ⟨h.schema.trans k.schema, h.data.trans k.data, h.valid.trans k.valid,
    h.ruleErrs.trans k.ruleErrs, h.rules.trans k.rules⟩

theorem Le.count {σ τ : Supply} (h : σ.Le τ) {e e' : Nat} (he : e ≤ e') (hint : Hint) :
    σ.count e hint ≤ τ.count e' hint := by
  cases hint
  · exact he
  · exact h.schema
  · exact h.data
  · exact h.valid
  · exact h.ruleErrs

theorem le_enterProperty (σ : Supply) : σ.Le σ.enterProperty :=
  ⟨Nat.le_refl _, Nat.le_succ _, Nat.le_succ _, Nat.le_refl _, List.prefix_rfl⟩

theorem le_enterExpansion (σ : Supply) (schema : Json) : σ.Le (σ.enterExpansion schema) :=
  ⟨Nat.le_refl _, Nat.le_refl _, Nat.le_succ _, Nat.le_refl _, List.prefix_append _ _⟩

theorem Issued.mono {σ τ : Supply} {e e' : Nat} {x : Ident} (hle : σ.Le τ) (he : e ≤ e')
    (hx : σ.Issued e x) : τ.Issued e' x := by
  rcases hx with hx | ⟨h, n, hn, rfl⟩
  · exact .inl hx
  · exact .inr ⟨h, n, hn.trans_le (hle.count he h), rfl⟩

theorem not_issued {σ : Supply} {e : Nat} {h : Hint} {n : Nat} (hn : σ.count e h ≤ n) :
    ¬ σ.Issued e (h.name n) := by
  rintro (hx | ⟨k, m, hm, heq⟩)
  · exact h.name_not_reserved n hx
  · obtain ⟨rfl, rfl⟩ := Hint.name_inj heq
    omega

theorem issued_ne {σ : Supply} {e : Nat} {h : Hint} {n : Nat} (hn : σ.count e h ≤ n) {x : Ident}
    (hx : σ.Issued e x) : x ≠ h.name n :=
  fun heq => not_issued hn (heq ▸ hx)

end Supply

end SchemaCompiler
