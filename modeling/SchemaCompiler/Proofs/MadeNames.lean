import Mathlib.Data.Set.Basic
import SchemaCompiler.Proofs.Emission
import SchemaCompiler.Proofs.Writings

/-!
# Names made from hints

A builder makes a name from a hint and the number of names made from that hint before. Names of one
hint differ in their numbers, and a name that ends in a number is none of the slots every procedure
shares. Names of different hints can still be the same: `a` followed by `10` is `a1` followed by
`0`. This happens exactly where one hint is another one followed by a positive number, as soon as
ten times as many names were made from the shorter hint.
-/

namespace SchemaCompiler

/-! ## Numbers at the end of a text -/

/-- Where a number ends in the digits of another one, the digits before them are a number too. -/
theorem exists_number_before {before : List Char} (hbefore : before ≠ []) {n m : Nat}
    (h : Nat.toDigits 10 n = before ++ Nat.toDigits 10 m) :
    ∃ k, 0 < k ∧ before = Nat.toDigits 10 k ∧ 10 * k ≤ n := by
  have hlength := congrArg List.length h
  rw [List.length_append] at hlength
  have hpos := List.length_pos_iff.mpr hbefore
  have hn : 10 ≤ n := by
    by_contra hlt
    rw [Nat.toDigits_of_lt_base (by omega)] at hlength
    have hm := Nat.length_toDigits_pos (b := 10) (n := m)
    simp only [List.length_singleton] at hlength
    omega
  rw [Nat.toDigits_of_base_le (by decide) hn] at h
  -- The last digits agree, so either `m` is used up or both numbers lose a digit.
  rcases Nat.lt_or_ge m 10 with hm | hm
  · rw [Nat.toDigits_of_lt_base hm] at h
    exact ⟨n / 10, by omega, (List.append_inj' h rfl).1.symm, by omega⟩
  · rw [Nat.toDigits_of_base_le (by decide) hm, ← List.append_assoc] at h
    obtain ⟨k, hk, hdigits, hle⟩ := exists_number_before hbefore (List.append_inj' h rfl).1
    exact ⟨k, hk, hdigits, by omega⟩
termination_by m

theorem repr_ten_mul {k : Nat} (hk : 0 < k) : (10 * k).repr = k.repr ++ (0 : Nat).repr := by
  rw [← String.toList_inj, String.toList_append, Nat.toList_repr, Nat.toList_repr,
    Nat.toList_repr]
  exact (Nat.toDigits_append_toDigits (b := 10) (d := 0) (by decide) hk (by decide)).symm

theorem append_repr_ne (text : String) (k : Nat) : text ++ k.repr ≠ text := by
  intro heq
  have hlength := congrArg String.length heq
  have hpos := Nat.length_toDigits_pos (b := 10) (n := k)
  rw [String.length_append, ← String.length_toList (s := k.repr), Nat.toList_repr] at hlength
  omega

namespace Ident

/-- One text is another one followed by a positive number that is at most a tenth of `n`. -/
def Extends (longer shorter : String) (n : Nat) : Prop :=
  ∃ k, 0 < k ∧ longer = shorter ++ k.repr ∧ 10 * k ≤ n

theorem extends_of_append {g h : String} {before : List Char} {n m : Nat} (hne : g ≠ h)
    (hhint : h.toList = g.toList ++ before)
    (hdigits : Nat.toDigits 10 n = before ++ Nat.toDigits 10 m) : Extends h g n := by
  have hbefore : before ≠ [] := by
    rintro rfl
    exact hne (String.toList_inj.mp (by simpa using hhint.symm))
  obtain ⟨k, hk, rfl, hle⟩ := exists_number_before hbefore hdigits
  refine ⟨k, hk, String.toList_inj.mp ?_, hle⟩
  rw [String.toList_append, Nat.toList_repr, hhint]

/-- Two names are the same only if their hints and numbers are, or if one hint extends the other. -/
theorem numbered_eq {g h : String} {n m : Nat} (heq : numbered g n = numbered h m) :
    (g = h ∧ n = m) ∨ Extends h g n ∨ Extends g h m := by
  have htext : g.toList ++ Nat.toDigits 10 n = h.toList ++ Nat.toDigits 10 m := by
    have hlist := congrArg (fun x : Ident => x.text.toList) heq
    simpa only [numbered, String.toList_append, Nat.toList_repr] using hlist
  by_cases hgh : g = h
  · subst hgh
    exact .inl ⟨rfl, eq_of_toDigits_eq (List.append_cancel_left htext)⟩
  · rcases List.append_eq_append_iff.mp htext with ⟨before, hh, hn⟩ | ⟨before, hg, hm⟩
    · exact .inr (.inl (extends_of_append hgh hh hn))
    · exact .inr (.inr (extends_of_append (Ne.symm hgh) hg hm))

end Ident

/-! ## The names a builder hands out -/

namespace Builder

namespace Request

def hint? : Request → Option String
  | .fresh hint => some hint
  | .declareConst hint _ => some hint
  | .declareLet hint _ => some hint
  | _ => none

def made? (b : Builder) : Request → Option Ident
  | .fresh hint => some (b.fresh hint).1
  | .declareConst hint init => some (b.declareConst hint init).1
  | .declareLet hint init => some (b.declareLet hint init).1
  | _ => none

/-- The names that requests are answered with, up to the first that goes against the rules. -/
def made : List Request → Builder → List Ident
  | [], _ => []
  | r :: rs, b =>
    match b.perform r with
    | .ok c => (r.made? b).toList ++ made rs c
    | .error _ => []

def asked (hint : String) (requests : List Request) : Nat :=
  requests.countP fun r => r.hint? == some hint

theorem asked_cons (hint : String) (r : Request) (rs : List Request) :
    asked hint (r :: rs) = asked hint rs + if r.hint? = some hint then 1 else 0 := by
  rw [asked, asked, List.countP_cons]
  simp only [beq_iff_eq]

end Request

theorem sameNames_closeBlockWithin {n : Nat} {b c : Builder} (h : closeBlockWithin n b = .ok c) :
    b.SameNames c := by
  induction n generalizing b with
  | zero => cases h
  | succ n ih =>
    rw [closeBlockWithin] at h
    split at h
    · cases h
    · cases h
      exact b.sameNames_closeScope
    · exact b.sameNames_closeScope.trans (ih h)

/-- A request that makes no name leaves the numbers alone. -/
theorem sameCounters_of_perform {b c : Builder} {r : Request} (h : b.perform r = .ok c)
    (hr : r.hint? = none) : c.counters = b.counters := by
  cases r with
  | fresh hint => cases hr
  | declareConst hint init => cases hr
  | declareLet hint init => cases hr
  | declare name init =>
    cases h
    exact (b.sameNames_emit _).counters
  | assign name value =>
    rw [perform, assign] at h
    split at h
    · cases h
    · cases h
      exact (b.sameNames_emit _).counters
  | emit op =>
    cases h
    exact (b.sameNames_emit _).counters
  | openIf cond =>
    cases h
    rfl
  | turnElse =>
    rw [perform, turnElse] at h
    split at h
    · cases h
      rfl
    · cases h
  | closeIf =>
    rw [perform, closeIf] at h
    split at h
    · cases h
      exact b.sameNames_closeScope.counters
    · cases h
  | openBlock =>
    cases h
    rfl
  | closeBlock => exact (sameNames_closeBlockWithin h).counters
  | ret valid =>
    cases h
    exact ((b.sameNames_emit _).trans (sameNames_markUnreachable _)).counters
  | markUnreachable =>
    cases h
    exact b.sameNames_markUnreachable.counters

theorem counters_of_perform {b c : Builder} {r : Request} {hint : String}
    (h : b.perform r = .ok c) (hr : r.hint? = some hint) :
    c.counters = setCount hint (countOf hint b.counters + 1) b.counters := by
  cases r with
  | fresh =>
    cases hr
    cases h
    rfl
  | declareConst =>
    cases hr
    cases h
    exact (sameNames_emit _ _).counters
  | declareLet =>
    cases hr
    cases h
    exact (sameNames_emit _ _).counters
  | _ => cases hr

theorem countOf_perform {b c : Builder} {r : Request} (h : b.perform r = .ok c) (other : String) :
    countOf other c.counters =
      countOf other b.counters + if r.hint? = some other then 1 else 0 := by
  cases hr : r.hint? with
  | none => simp [sameCounters_of_perform h hr]
  | some hint =>
    rw [counters_of_perform h hr, countOf_setCount]
    by_cases heq : other = hint
    · subst heq
      simp
    · simp [heq, Ne.symm heq]

namespace Request

theorem made?_eq (r : Request) (b : Builder) :
    r.made? b = r.hint?.map fun hint => .numbered hint (countOf hint b.counters) := by
  cases r <;> rfl

theorem made_cons {r : Request} {b c : Builder} (h : b.perform r = .ok c) (rs : List Request) :
    made (r :: rs) b =
      (r.hint?.map fun hint => .numbered hint (countOf hint b.counters)).toList ++ made rs c := by
  simp only [made, h, made?_eq]

theorem made_of_fault {r : Request} {b : Builder} {fault : Fault} (h : b.perform r = .error fault)
    (rs : List Request) : made (r :: rs) b = [] := by
  simp only [made, h]

/-- A made name carries its hint and a number from the count of the hint on. -/
theorem of_mem_made {rs : List Request} {b : Builder} {x : Ident} (h : x ∈ made rs b) :
    ∃ hint n, x = .numbered hint n ∧ (∃ r ∈ rs, r.hint? = some hint) ∧
      countOf hint b.counters ≤ n ∧ n < countOf hint b.counters + asked hint rs := by
  induction rs generalizing b with
  | nil => cases h
  | cons r rs ih =>
    cases hc : b.perform r with
    | error fault =>
      rw [made_of_fault hc] at h
      cases h
    | ok c =>
      rw [made_cons hc, List.mem_append, Option.mem_toList, Option.map_eq_some_iff] at h
      rcases h with ⟨hint, hr, rfl⟩ | hx
      · refine ⟨hint, _, rfl, ⟨r, List.mem_cons_self, hr⟩, Nat.le_refl _, ?_⟩
        rw [asked_cons, if_pos hr]
        omega
      · obtain ⟨hint, n, rfl, ⟨r', hr', hhint⟩, hlow, hhigh⟩ := ih hx
        rw [countOf_perform hc hint] at hlow hhigh
        refine ⟨hint, n, rfl, ⟨r', List.mem_cons_of_mem _ hr', hhint⟩, by omega, ?_⟩
        rw [asked_cons]
        omega

/-- Names differ as long as no hint in use extends another one within the numbers reached. -/
theorem nodup_made {hints : Set String} {limit : Nat}
    (hapart : ∀ g ∈ hints, ∀ k, 0 < k → 10 * k + 1 < limit → g ++ k.repr ∉ hints)
    {rs : List Request} {b : Builder} (hhints : ∀ r ∈ rs, ∀ hint ∈ r.hint?, hint ∈ hints)
    (hlimit : ∀ hint, countOf hint b.counters + asked hint rs < limit) : (made rs b).Nodup := by
  have hextends {g h : String} {n : Nat} (hg : g ∈ hints) (hh : h ∈ hints) (hn : n + 1 < limit) :
      ¬ Ident.Extends h g n := by
    rintro ⟨k, hk, rfl, hle⟩
    exact hapart g hg k hk (by omega) hh
  induction rs generalizing b with
  | nil => exact List.nodup_nil
  | cons r rs ih =>
    cases hc : b.perform r with
    | error fault =>
      rw [made_of_fault hc]
      exact List.nodup_nil
    | ok c =>
      have hrest : (made rs c).Nodup := by
        refine ih (fun r' hr' => hhints r' (List.mem_cons_of_mem _ hr')) fun hint => ?_
        have hbound := hlimit hint
        rw [asked_cons] at hbound
        rw [countOf_perform hc hint]
        omega
      rw [made_cons hc]
      cases hr : r.hint? with
      | none => exact hrest
      | some hint =>
        refine List.nodup_cons.mpr ⟨fun hmem => ?_, hrest⟩
        obtain ⟨other, n, heq, ⟨r', hr', hother⟩, hlow, hhigh⟩ := of_mem_made hmem
        rw [countOf_perform hc other] at hlow hhigh
        have hmine := hlimit hint
        have hyours := hlimit other
        rw [asked_cons, if_pos hr] at hmine
        rw [asked_cons] at hyours
        have hhere : hint ∈ hints := hhints r List.mem_cons_self hint hr
        have hthere : other ∈ hints := hhints r' (List.mem_cons_of_mem _ hr') other hother
        rcases Ident.numbered_eq heq with ⟨rfl, hsame⟩ | hlonger | hlonger
        · rw [if_pos hr] at hlow
          omega
        · exact hextends hhere hthere (by omega) hlonger
        · exact hextends hthere hhere (by omega) hlonger

/-- Names made from one hint again and again are numbered in order. -/
theorem made_replicate (hint : String) (n : Nat) (rest : List Request) (b : Builder) :
    ∃ c, made (List.replicate n (.fresh hint) ++ rest) b =
        (List.range' (countOf hint b.counters) n).map (.numbered hint) ++ made rest c ∧
      ∀ other, countOf other c.counters =
        countOf other b.counters + if other = hint then n else 0 := by
  induction n generalizing b with
  | zero => exact ⟨b, rfl, fun other => by simp⟩
  | succ n ih =>
    have hperform : b.perform (.fresh hint) = .ok (b.fresh hint).2 := rfl
    have hcount := countOf_perform hperform
    obtain ⟨c, hmade, hcounts⟩ := ih (b.fresh hint).2
    refine ⟨c, ?_, fun other => ?_⟩
    · rw [List.replicate_succ, List.cons_append, made_cons hperform, hmade, hcount hint]
      simp [hint?, List.range'_succ]
    · rw [hcounts other, hcount other]
      by_cases heq : other = hint
      · subst heq
        simp [hint?, Nat.add_assoc, Nat.add_comm 1]
      · simp [hint?, heq, Ne.symm heq]

/-- Ten times as many names of the shorter hint lead to the first name of the longer one. -/
theorem not_nodup_made (g : String) {k : Nat} (hk : 0 < k) :
    ¬ (made (List.replicate (10 * k + 1) (.fresh g) ++ [.fresh (g ++ k.repr)]) {}).Nodup := by
  intro hnodup
  obtain ⟨c, hmade, hcounts⟩ := made_replicate g (10 * k + 1) [.fresh (g ++ k.repr)] {}
  have hlast : made [.fresh (g ++ k.repr)] c = [.numbered g (10 * k)] := by
    have hcount := hcounts (g ++ k.repr)
    rw [if_neg (append_repr_ne g k)] at hcount
    rw [made_cons rfl, hint?, Option.map_some, hcount]
    simp [made, Ident.numbered, countOf, repr_ten_mul hk, String.append_assoc]
  rw [hmade, hlast, List.nodup_append] at hnodup
  refine hnodup.2.2 (.numbered g (10 * k)) ?_ _ (List.mem_singleton_self _) rfl
  refine List.mem_map_of_mem ?_
  rw [List.mem_range']
  exact ⟨10 * k, by omega, by simp [countOf]⟩

/-- Whatever a builder is asked for, no name it makes is a slot that every procedure shares. The
names are pairwise distinct, with fewer than `limit` of each hint, exactly for those hints of which
none is another one followed by a positive number below a tenth of the limit. -/
theorem made_distinct_iff (hints : Set String) (limit : Nat) :
    (∀ requests, ∀ x ∈ made requests {}, x ∉ Ident.reserved) ∧
      ((∀ requests, (∀ r ∈ requests, ∀ hint ∈ r.hint?, hint ∈ hints) →
          (∀ hint, asked hint requests < limit) → (made requests {}).Nodup) ↔
        ∀ g ∈ hints, ∀ k, 0 < k → 10 * k + 1 < limit → g ++ k.repr ∉ hints) := by
  refine ⟨fun requests x hx => ?_, fun hdistinct g hg k hk hlimit hlonger => ?_,
    fun hapart requests hhints hlimit => nodup_made hapart hhints fun hint => ?_⟩
  · obtain ⟨hint, n, rfl, -⟩ := of_mem_made hx
    exact Ident.numbered_not_reserved hint n
  · refine not_nodup_made g hk (hdistinct _ (fun r hr hint hhint => ?_) fun hint => ?_)
    · rcases List.mem_append.mp hr with hr | hr
      · obtain rfl := List.eq_of_mem_replicate hr
        exact Option.some.inj hhint ▸ hg
      · obtain rfl := List.mem_singleton.mp hr
        exact Option.some.inj hhint ▸ hlonger
    · have hne := append_repr_ne g k
      have hasked : asked hint (List.replicate (10 * k + 1) (.fresh g) ++ [.fresh (g ++ k.repr)]) =
          (if g = hint then 10 * k + 1 else 0) + if g ++ k.repr = hint then 1 else 0 := by
        simp [asked, List.countP_append, List.countP_replicate, List.countP_singleton, hint?]
      rw [hasked]
      by_cases hlast : g ++ k.repr = hint
      · rw [if_pos hlast, if_neg fun hfirst => hne (hlast.trans hfirst.symm)]
        omega
      · rw [if_neg hlast]
        split <;> omega
  · simpa [countOf] using hlimit hint

/-- Eleven names from one hint and one from another, the last two of which are the same. -/
theorem name_made_twice :
    let requests : List Request := List.replicate 11 (.fresh "a") ++ [.fresh "a1"]
    (∀ hint, asked hint requests < 4294967296) ∧
      (made requests {}).drop 10 = [⟨"a10"⟩, ⟨"a10"⟩] ∧ ¬ (made requests {}).Nodup := by
  intro requests
  refine ⟨fun hint => ?_, by decide +kernel, by decide +kernel⟩
  exact List.countP_le_length.trans_lt (by decide)

end Request

end Builder

end SchemaCompiler
