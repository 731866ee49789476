import ContextFree.Normal.Erasure
import ContextFree.Proofs.QuotedKeys
import Mathlib.Tactic

/-!
# Leaving symbols out

`Drops P` leaves out some occurrences of symbols with a property. The variants that erasure makes up for an
epsilon rule are exactly the sequences that leave out at least one occurrence of its symbol.
-/

namespace ContextFree

/-- The second sequence is the first without some occurrences of symbols that have the property. -/
inductive Drops (P : Symbol → Prop) : List Symbol → List Symbol → Prop where
  | nil : Drops P [] []
  | keep (s : Symbol) {u v : List Symbol} (rest : Drops P u v) : Drops P (s :: u) (s :: v)
  | drop {s : Symbol} {u v : List Symbol} (prop : P s) (rest : Drops P u v) : Drops P (s :: u) v

variable {P Q : Symbol → Prop} {u v w : List Symbol} {a s : Symbol}

namespace Drops

lemma refl (u : List Symbol) : Drops P u u := by
  induction u with
  | nil => exact nil
  | cons s u ih => exact keep s ih

lemma mono (h : Drops P u v) (himp : ∀ s, P s → Q s) : Drops Q u v := by
  induction h with
  | nil => exact nil
  | keep s _ ih => exact keep s ih
  | drop prop _ ih => exact drop (himp _ prop) ih

lemma trans (h : Drops P u v) (h' : Drops P v w) : Drops P u w := by
  induction h generalizing w with
  | nil => exact h'
  | keep s _ ih =>
    cases h' with
    | keep _ rest => exact keep s (ih rest)
    | drop prop rest => exact drop prop (ih rest)
  | drop prop _ ih => exact drop prop (ih h')

lemma map {f : Symbol → Symbol} (h : Drops P u v) (himp : ∀ s, P s → Q (f s)) :
    Drops Q (u.map f) (v.map f) := by
  induction h with
  | nil => exact nil
  | keep s _ ih => exact keep (f s) ih
  | drop prop _ ih => exact drop (himp _ prop) ih

lemma split (h : Drops (fun s => P s ∨ Q s) u w) : ∃ v, Drops P u v ∧ Drops Q v w := by
  induction h with
  | nil => exact ⟨[], nil, nil⟩
  | keep s _ ih =>
    obtain ⟨v, hu, hw⟩ := ih
    exact ⟨s :: v, keep s hu, keep s hw⟩
  | @drop s _ _ prop _ ih =>
    obtain ⟨v, hu, hw⟩ := ih
    rcases prop with hp | hq
    · exact ⟨v, drop hp hu, hw⟩
    · exact ⟨s :: v, keep s hu, drop hq hw⟩

lemma sublist (h : Drops P u v) : v.Sublist u := by
  induction h with
  | nil => exact .slnil
  | keep s _ ih => exact ih.cons_cons s
  | drop _ _ ih => exact ih.cons _

lemma nil_iff : Drops P u [] ↔ ∀ s ∈ u, P s := by
  induction u with
  | nil => simpa using nil
  | cons s u ih =>
    rw [List.forall_mem_cons, ← ih]
    constructor
    · rintro (_ | _ | ⟨prop, rest⟩)
      exact ⟨prop, rest⟩
    · rintro ⟨prop, rest⟩
      exact drop prop rest

lemma eq_of_none (h : Drops P u v) (hnone : ∀ s ∈ u, ¬P s) : v = u := by
  induction h with
  | nil => rfl
  | keep s _ ih => rw [ih fun x hx => hnone x (List.mem_cons_of_mem _ hx)]
  | drop prop _ _ => exact absurd prop (hnone _ List.mem_cons_self)

lemma eq_nil_of_nil (h : Drops P [] v) : v = [] := by
  cases h
  rfl

lemma singleton_cases (h : Drops P [s] v) : v = [s] ∨ v = [] ∧ P s := by
  cases h with
  | keep _ rest => exact .inl (by rw [rest.eq_nil_of_nil])
  | drop prop rest => exact .inr ⟨rest.eq_nil_of_nil, prop⟩

end Drops

lemma mem_leaveOut : v ∈ leaveOut a u ↔ Drops (· = a) u v := by
  induction u generalizing v with
  | nil =>
    rw [leaveOut, List.mem_singleton]
    constructor
    · rintro rfl
      exact .nil
    · exact Drops.eq_nil_of_nil
  | cons s u ih =>
    simp only [leaveOut, List.mem_append, List.mem_map]
    constructor
    · rintro (⟨v, hv, rfl⟩ | hv)
      · exact .keep s (ih.mp hv)
      · split_ifs at hv with hs
        · exact .drop hs (ih.mp hv)
        · simp at hv
    · rintro (_ | ⟨_, rest⟩ | ⟨hs, rest⟩)
      · exact .inl ⟨_, ih.mpr rest, rfl⟩
      · rw [if_pos hs]
        exact .inr (ih.mpr rest)

lemma leaveOut_eq_cons (a : Symbol) (u : List Symbol) :
    ∃ others, leaveOut a u = u :: others ∧ ∀ v ∈ others, v.length < u.length := by
  induction u with
  | nil => exact ⟨[], rfl, by simp⟩
  | cons s u ih =>
    obtain ⟨others, hways, hlt⟩ := ih
    refine ⟨others.map (s :: ·) ++ if s = a then u :: others else [], by simp [leaveOut, hways], ?_⟩
    intro v hv
    rw [List.mem_append, List.mem_map] at hv
    rcases hv with ⟨x, hx, rfl⟩ | hv
    · simpa using hlt x hx
    · split_ifs at hv
      · rcases List.mem_cons.mp hv with rfl | hv
        · simp
        · exact Nat.lt_succ_of_lt (hlt v hv)
      · simp at hv

lemma mem_tail_leaveOut : v ∈ (leaveOut a u).tail ↔ Drops (· = a) u v ∧ v ≠ u := by
  obtain ⟨others, hways, hlt⟩ := leaveOut_eq_cons a u
  rw [← mem_leaveOut, hways, List.tail_cons, List.mem_cons]
  constructor
  · intro hv
    exact ⟨.inr hv, fun h => by simpa [h] using hlt v hv⟩
  · rintro ⟨hv, hne⟩
    exact hv.resolve_left hne

lemma distinctSequences_eq (seen : Std.ExtTreeSet String) (l : List (List Symbol)) :
    distinctSequences seen l = (l.filter fun c => sequenceKey Text.isPrintable c ∉ seen).eraseDups := by
  induction l generalizing seen with
  | nil => rfl
  | cons c l ih =>
    rw [distinctSequences, List.filter_cons]
    by_cases hc : sequenceKey Text.isPrintable c ∈ seen
    · rw [if_pos (Std.ExtTreeSet.contains_iff_mem.mpr hc), if_neg (by simpa using hc), ih]
    · have hseen : ∀ x, decide (sequenceKey Text.isPrintable x ∉ seen.insert (sequenceKey Text.isPrintable c)) =
          (!x == c && decide (sequenceKey Text.isPrintable x ∉ seen)) := by
        intro x
        rw [Bool.eq_iff_iff]
        simp [sequenceKey_inj, @eq_comm _ c x]
      rw [if_neg (mt Std.ExtTreeSet.contains_iff_mem.mp hc), if_pos (by simpa using hc), ih,
        List.eraseDups_cons, List.filter_filter]
      simp only [hseen]

lemma mem_distinctSequences {seen : Std.ExtTreeSet String} {l : List (List Symbol)} :
    v ∈ distinctSequences seen l ↔ v ∈ l ∧ sequenceKey Text.isPrintable v ∉ seen := by
  rw [distinctSequences_eq, List.mem_eraseDups, List.mem_filter, decide_eq_true_iff]

/-- The variants of a sequence leave out at least one occurrence of the symbol, in every possible way. -/
theorem mem_dropVariants : v ∈ dropVariants a u ↔ Drops (· = a) u v ∧ v ≠ u := by
  rw [dropVariants, mem_distinctSequences, mem_tail_leaveOut]
  simp

end ContextFree
