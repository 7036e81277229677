import SchemaCompiler.Proofs.Collecting
import SchemaCompiler.Proofs.DeepEquality

/-!
# Integers and deep equality

Deep equality compares integers through their nearest doubles. A safe integer, one of magnitude
below `2^53`, shares its nearest double with no other integer, and integers that doubles represent
are told apart as well. Where of any two integers in two values one is safe or both are represented,
the values are equal only if they are the same, and the keyword `const` accepts nothing but its
value. The integers `2^53` and `2^53 + 1` are taken for equal.
-/

namespace SchemaCompiler

open Run

namespace Double

theorem natAbs_value (x : Double) : x.value.natAbs = x.units := by
  unfold value
  split <;> simp

theorem value_ofInt_of_le {n : Int} (h : n.natAbs ≤ 9007199254740992) :
    (ofInt n).value = n * one := by
  have hunits : nearest (n.natAbs * one) 1 = n.natAbs * one := nearest_of_dvd (spacing_dvd_whole h)
  rw [ofInt, hunits, value]
  simp only [decide_eq_true_eq, Int.natCast_mul]
  split
  next hn =>
    have habs : (n.natAbs : Int) = -n := by omega
    rw [habs, Int.neg_mul, Int.neg_neg]
  next hn =>
    have habs : (n.natAbs : Int) = n := by omega
    rw [habs]

/-- No other integer is rounded to a safe one. -/
theorem eq_of_value_ofInt {m n : Int} (hm : m.natAbs < 9007199254740992)
    (h : (ofInt m).value = (ofInt n).value) : m = n := by
  have hone := one_pos
  have hunits : m.natAbs * one = nearest (n.natAbs * one) 1 := by
    have habs := congrArg Int.natAbs h
    rw [value_ofInt_of_le hm.le, natAbs_value, Int.natAbs_mul, Int.natAbs_natCast] at habs
    exact habs
  -- A larger integer is rounded to the next safe one or further up.
  have hn : n.natAbs ≤ m.natAbs := by
    by_contra hlt
    have hnext : (m.natAbs + 1) * one ≤ nearest (n.natAbs * one) 1 :=
      le_nearest (spacing_dvd_whole hm) (Nat.mul_le_mul_right one (by omega))
    rw [← hunits, Nat.add_mul] at hnext
    omega
  rw [value_ofInt_of_le hm.le, value_ofInt_of_le (hn.trans hm.le)] at h
  exact Int.eq_of_mul_eq_mul_right (by omega) h

end Double

namespace Number

def IsSafe : Number → Prop
  | .int n => n.natAbs < 9007199254740992
  | .double _ => False

def IsRepresented (a : Number) : Prop := a.value = a.exactValue

/-- One of two numbers is safe or doubles represent both. -/
def ToldApart (a b : Number) : Prop := a.IsSafe ∨ b.IsSafe ∨ a.IsRepresented ∧ b.IsRepresented

theorem int_eq_of_value {m n : Int} (hapart : ToldApart (.int m) (.int n))
    (h : (int m).value = (int n).value) : m = n := by
  rcases hapart with hm | hn | ⟨hm, hn⟩
  · exact Double.eq_of_value_ofInt hm h
  · exact (Double.eq_of_value_ofInt hn h.symm).symm
  · have hexact : m * Double.one = n * Double.one := hm.symm.trans (h.trans hn)
    have hone := Double.one_pos
    exact Int.eq_of_mul_eq_mul_right (by omega) hexact

end Number

namespace Json

mutual

def numbers : Json → List Number
  | .num n => [n]
  | .arr items => itemNumbers items
  | .obj fields => fieldNumbers fields
  | _ => []
termination_by structural v => v

def itemNumbers : List Json → List Number
  | [] => []
  | v :: rest => v.numbers ++ itemNumbers rest
termination_by structural items => items

def fieldNumbers : List (String × Json) → List Number
  | [] => []
  | (_, v) :: rest => v.numbers ++ fieldNumbers rest
termination_by structural fields => fields

end

def Integral (v : Json) : Prop := ∀ x ∈ v.numbers, ∃ n, x = .int n

variable {measure : Number → Int}

mutual

/-- Values are determined by a measure that tells their numbers apart. -/
theorem eq_of_measured : (a b : Json) →
    (∀ m ∈ a.numbers, ∀ n ∈ b.numbers, measure m = measure n → m = n) →
    a.measured measure = b.measured measure → a = b
  | .null, b, _, h => by cases b <;> simp_all [measured]
  | .bool _, b, _, h => by cases b <;> simp_all [measured]
  | .num m, b, hapart, h => by
    cases b with
    | num n => rw [hapart m (by simp [numbers]) n (by simp [numbers]) (by simpa [measured] using h)]
    | _ => simp [measured] at h
  | .str _, b, _, h => by cases b <;> simp_all [measured]
  | .arr xs, b, hapart, h => by
    cases b with
    | arr ys => rw [items_eq_of_measured xs ys hapart (by simpa [measured] using h)]
    | _ => simp [measured] at h
  | .obj xs, b, hapart, h => by
    cases b with
    | obj ys => rw [fields_eq_of_measured xs ys hapart (by simpa [measured] using h)]
    | _ => simp [measured] at h
termination_by structural a => a

theorem items_eq_of_measured : (xs ys : List Json) →
    (∀ m ∈ itemNumbers xs, ∀ n ∈ itemNumbers ys, measure m = measure n → m = n) →
    measuredItems measure xs = measuredItems measure ys → xs = ys
  | [], ys, _, h => by cases ys <;> simp_all [measuredItems]
  | x :: xs, ys, hapart, h => by
    cases ys with
    | nil => simp [measuredItems] at h
    | cons y ys =>
      simp only [itemNumbers, List.mem_append] at hapart
      simp only [measuredItems, List.cons.injEq] at h
      rw [eq_of_measured x y (fun m hm n hn => hapart m (.inl hm) n (.inl hn)) h.1,
        items_eq_of_measured xs ys (fun m hm n hn => hapart m (.inr hm) n (.inr hn)) h.2]
termination_by structural xs => xs

theorem fields_eq_of_measured : (xs ys : List (String × Json)) →
    (∀ m ∈ fieldNumbers xs, ∀ n ∈ fieldNumbers ys, measure m = measure n → m = n) →
    measuredFields measure xs = measuredFields measure ys → xs = ys
  | [], ys, _, h => by cases ys <;> simp_all [measuredFields]
  | (k, x) :: xs, ys, hapart, h => by
    cases ys with
    | nil => simp [measuredFields] at h
    | cons field ys =>
      obtain ⟨l, y⟩ := field
      simp only [fieldNumbers, List.mem_append] at hapart
      simp only [measuredFields, List.cons.injEq, Prod.mk.injEq] at h
      rw [h.1.1, eq_of_measured x y (fun m hm n hn => hapart m (.inl hm) n (.inl hn)) h.1.2,
        fields_eq_of_measured xs ys (fun m hm n hn => hapart m (.inr hm) n (.inr hn)) h.2]
termination_by structural xs => xs

end

/-- Values whose integers are told apart are equal only if they are the same. -/
theorem equal_iff_eq {a b : Json} (ha : a.Integral) (hb : b.Integral)
    (hapart : ∀ m ∈ a.numbers, ∀ n ∈ b.numbers, m.ToldApart n) : a.equal b = true ↔ a = b := by
  rw [equal_iff]
  refine ⟨eq_of_measured a b fun m hm n hn hvalue => ?_, fun h => by rw [h]⟩
  obtain ⟨i, rfl⟩ := ha m hm
  obtain ⟨j, rfl⟩ := hb n hn
  rw [Number.int_eq_of_value (hapart _ hm _ hn) hvalue]

end Json

/-! ## The keyword that compares with a constant -/

/-- What an occurrence of `const` does in a run that has found nothing yet. -/
theorem clausesRun_const {env : Environment} {p : Program} {it : Position} {value data : Json}
    (hvalue : p.valueAt? (it.valueRef "const" false) = some value)
    (hdata : it.data.value? data = some data) (snapshot : Option Nat) (σ : Supply) :
    let r := clausesRun env p snapshot [(⟨"const", Vocabulary.const, none⟩, .equal)] it σ
      { root := data }
    ∃ errors, Compiled.conclude r.2 r.1.errors = .ok { valid := data.equal value, errors } := by
  intro r
  let cxt := (⟨"const", Vocabulary.const, none⟩ : Mark).context env it σ
  have hr : r = andThen (cxt.runTests p (some value) [(!data.equal value, {})] { root := data })
      fun st => (st, .next) := by
    have hmark : (⟨"const", Vocabulary.const, none⟩ : Mark).value? p it data = some value := hvalue
    simp only [r, clausesRun, Clause.run, Clause.checks, hmark, hdata, equalValues, ite_self]
    rfl
  rw [hr]
  cases data.equal value with
  | true => exact ⟨[], rfl⟩
  | false =>
    simp only [Bool.not_false, KeywordContext.runTests, if_true]
    rw [KeywordContext.runReport_eq _ _ fun _ => rfl]
    cases cxt.stopsRun with
    | true => exact ⟨_, rfl⟩
    | false => cases cxt.options.allErrors <;> exact ⟨_, rfl⟩

theorem valueAt?_const (rules : RuleTable) (value : Json) (context : Option Context) :
    (⟨rules, .obj [("const", value)], context⟩ : Program).valueAt?
      ((Position.root (.obj [("const", value)])).valueRef "const" false) = some value := by
  have hfound :
      Pointer.resolve (Pointer.child "" "const") (.obj [("const", value)]) = some value := by
    rw [Pointer.resolve_child (.inl rfl)]
    rfl
  cases value with
  | num n => rfl
  | bool b => rfl
  | str s => rfl
  | _ => exact hfound

section New

variable (options : Options) (draft : Json → Option MetaSchema.Violation) (budget : Nat)

theorem form_const (value : Json) :
    (Validator.new options draft (budget + 1)).form (.obj [("const", value)]) =
      .ok (.object [("const", value)] [(⟨"const", Vocabulary.const, none⟩, .equal)]) := by
  obtain ⟨_, _, _, _, _, _, strict⟩ := options
  cases strict <;> rfl

theorem Validator.exists_const (value : Json) :
    ∃ c, ((Validator.new options draft (budget + 1)).compile (.obj [("const", value)])).1 = .ok c ∧
      ∀ context data, ∃ errors,
        (c.validate context data).outcome = .ok { valid := data.equal value, errors } := by
  obtain ⟨c, hc, hasync, hrun⟩ :=
    run_of_form (new_standard _ _ _) (form_const options draft budget value)
      (Vocabulary.plain _ _ _ _)
  refine ⟨c, hc, fun context data => ?_⟩
  obtain ⟨houtcome, -⟩ := hrun context data
  rw [Compiled.validate_eq hasync, houtcome, Form.run]
  split
  · exact clausesRun_const (valueAt?_const _ value context) rfl _ _
  · exact clausesRun_const (valueAt?_const _ value context) rfl _ _

end New

/-- Two values without doubles are equal exactly if they are the same, provided that of any two
integers in them one is safe or both are represented by doubles. The keyword `const` then accepts
one of them in the place of the other exactly if they are the same. -/
theorem Validator.integers_told_apart {a b : Json} (ha : a.Integral) (hb : b.Integral)
    (hapart : ∀ m ∈ a.numbers, ∀ n ∈ b.numbers, m.ToldApart n) :
    (Json.equal a b = true ↔ a = b) ∧
      ∀ options draft budget,
        ∃ c, ((Validator.new options draft (budget + 1)).compile (.obj [("const", b)])).1 = .ok c ∧
          ∀ context, ∃ validation, (c.validate context a).outcome = .ok validation ∧
            (validation.valid = true ↔ a = b) := by
  have hequal := Json.equal_iff_eq ha hb hapart
  refine ⟨hequal, fun options draft budget => ?_⟩
  obtain ⟨c, hc, hvalidate⟩ := exists_const options draft budget b
  refine ⟨c, hc, fun context => ?_⟩
  obtain ⟨errors, houtcome⟩ := hvalidate context a
  exact ⟨_, houtcome, hequal⟩

/-- The greatest safe integer is not taken for a larger one that is rounded. -/
theorem Validator.integers_told_apart_nested :
    let a : Json := .obj [("k", .arr [.num (.int 9007199254740991), .str "x"])]
    let b : Json := .obj [("k", .arr [.num (.int 18446744073709551615), .str "x"])]
    a.Integral ∧ b.Integral ∧ (∀ m ∈ a.numbers, ∀ n ∈ b.numbers, m.ToldApart n) ∧
      a.equal b = false ∧
      ∃ c validation, ((Validator.new {}).compile (.obj [("const", b)])).1 = .ok c ∧
        (c.validate none a).outcome = .ok validation ∧ validation.valid = false := by
  intro a b
  have ha : a.numbers = [.int 9007199254740991] := rfl
  have hb : b.numbers = [.int 18446744073709551615] := rfl
  have hia : a.Integral := by simp [Json.Integral, ha]
  have hib : b.Integral := by simp [Json.Integral, hb]
  have hapart : ∀ m ∈ a.numbers, ∀ n ∈ b.numbers, m.ToldApart n := by
    simp [ha, hb, Number.ToldApart, Number.IsSafe]
  have hne : a ≠ b := by simp [a, b]
  obtain ⟨hequal, hconst⟩ := integers_told_apart hia hib hapart
  obtain ⟨c, hc, hvalidate⟩ := hconst {} _ 511
  obtain ⟨validation, houtcome, hvalid⟩ := hvalidate none
  exact ⟨hia, hib, hapart, by simpa using mt hequal.mp hne, c, validation, hc, houtcome,
    by simpa using mt hvalid.mp hne⟩

/-- From `2^53` on, an integer can be taken for its neighbour. -/
theorem Validator.integers_taken_for_equal :
    let a : Json := .num (.int 9007199254740992)
    let b : Json := .num (.int 9007199254740993)
    a ≠ b ∧ a.signed?.isSome = true ∧ b.signed?.isSome = true ∧ a.equal b = true ∧
      ∃ c validation, ((Validator.new {}).compile (.obj [("const", b)])).1 = .ok c ∧
        (c.validate none a).outcome = .ok validation ∧ validation.valid = true := by
  intro a b
  have hequal : a.equal b = true := by decide +kernel
  obtain ⟨c, hc, hvalidate⟩ := exists_const {} _ 511 b
  obtain ⟨errors, houtcome⟩ := hvalidate none a
  exact ⟨by simp [a, b], rfl, rfl, hequal, c, _, hc, houtcome, hequal⟩

end SchemaCompiler
