import ContextFree.Normal.Form
import ContextFree.Proofs.Attainability

/-!
# Normal form as shapes of rules

A rule in normal form erases the start symbol, or has one terminal or two nonterminals on its right side. The check
accepts a grammar if all rules have one of these shapes and the start symbol is not both erased and in use, so the order
of the rules does not matter for acceptance. It does for the report, which is about the first rule without a shape.
-/

namespace ContextFree.Grammar

variable {g : Grammar} {r : Rule} {fault : Fault} {rules : List Rule}

/-- The shapes of rules in normal form. -/
inductive NormalShape (g : Grammar) : Rule → Prop where
  | epsilon : NormalShape g ⟨g.start, []⟩
  | terminal (a : Symbol) {t : Symbol} (mem : t ∈ g.terminals) : NormalShape g ⟨a, [t]⟩
  | pair (a : Symbol) {b c : Symbol} (first_mem : b ∈ g.nonterminals) (second_mem : c ∈ g.nonterminals) :
      NormalShape g ⟨a, [b, c]⟩

/-- The start symbol has an epsilon rule and occurs on a right side. -/
def StartErasedInUse (g : Grammar) : Prop :=
  ⟨g.start, []⟩ ∈ g.rules ∧ ∃ r ∈ g.rules, g.start ∈ r.right

instance (g : Grammar) : Decidable g.StartErasedInUse :=
  inferInstanceAs (Decidable (_ ∧ _))

lemma Consistent.fault?_eq_none_iff (hg : g.Consistent) (r : Rule) : g.fault? r = none ↔ g.NormalShape r := by
  obtain ⟨a, right⟩ := r
  unfold fault?
  constructor
  · intro h
    match right with
    | [] =>
      obtain rfl : a = g.start := by simpa using h
      exact .epsilon
    | [t] =>
      have ht : g.isTerminal t = true := by simpa using h
      exact .terminal a ((hg.isTerminal_iff t).mp ht)
    | [b, c] =>
      obtain ⟨hb, hc⟩ : g.isNonterminal b = true ∧ g.isNonterminal c = true := by simpa using h
      exact .pair a ((hg.isNonterminal_iff b).mp hb) ((hg.isNonterminal_iff c).mp hc)
    | _ :: _ :: _ :: _ => cases h
  · intro h
    cases h with
    | epsilon => simp
    | terminal _ ht => simp [(hg.isTerminal_iff _).mpr ht]
    | pair _ hb hc => simp [(hg.isNonterminal_iff _).mpr hb, (hg.isNonterminal_iff _).mpr hc]

lemma NormalShape.mem_terminals {a t : Symbol} (h : g.NormalShape ⟨a, [t]⟩) : t ∈ g.terminals := by
  cases h with
  | terminal _ mem => exact mem

lemma NormalShape.any_isEpsilon (h : ∀ r ∈ g.rules, g.NormalShape r) :
    g.rules.any (·.isEpsilon) = true ↔ ⟨g.start, []⟩ ∈ g.rules := by
  rw [List.any_eq_true]
  constructor
  · rintro ⟨r, hr, hnil⟩
    cases h r hr with
    | epsilon => exact hr
    | terminal => cases hnil
    | pair => cases hnil
  · intro hr
    exact ⟨_, hr, rfl⟩

lemma any_uses_iff : g.rules.any (·.uses g.start) = true ↔ ∃ r ∈ g.rules, g.start ∈ r.right := by
  rw [List.any_eq_true]
  simp only [Rule.uses, List.contains_iff_mem]

/-! ### One pass over the rules -/

/-- The check in one pass. It stops at the first rule with a fault, and on the way it notes whether an epsilon rule has
come up and whether the start symbol has been used. -/
def inspect (g : Grammar) : List Rule → Bool → Bool → Option Violation
  | [], erased, used => if erased && used then some (.nullableStart g.start) else none
  | r :: rest, erased, used =>
    match g.fault? r with
    | some fault => some (.shape r fault)
    | none => g.inspect rest (erased || r.isEpsilon) (used || r.uses g.start)

/-- The first fault in the shape of a rule, with the rule. -/
def firstFault? (g : Grammar) (rules : List Rule) : Option Violation :=
  rules.findSome? fun r => (g.fault? r).map (.shape r)

lemma firstFault?_cons (g : Grammar) (r : Rule) (rest : List Rule) :
    g.firstFault? (r :: rest) = ((g.fault? r).map (.shape r)).or (g.firstFault? rest) := by
  unfold firstFault?
  rw [List.findSome?_cons]
  cases g.fault? r <;> rfl

/-- The notes taken so far matter at the end of the rules only. -/
lemma inspect_eq (g : Grammar) (rules : List Rule) (erased used : Bool) :
    g.inspect rules erased used = (g.firstFault? rules).or
      (if (erased || rules.any (·.isEpsilon)) && (used || rules.any (·.uses g.start)) then
        some (.nullableStart g.start) else none) := by
  induction rules generalizing erased used with
  | nil => simp [inspect, firstFault?]
  | cons r rest ih =>
    rw [inspect, firstFault?_cons]
    cases g.fault? r with
    | some fault => rfl
    | none =>
      rw [Option.map_none, Option.none_or, List.any_cons, List.any_cons, ← Bool.or_assoc, ← Bool.or_assoc]
      exact ih _ _

lemma violation?_eq_inspect (g : Grammar) : g.violation? = g.inspect g.rules false false := by
  rw [inspect_eq]
  unfold violation? firstFault?
  split <;> simp [*]

/-! ### The outcomes of the check -/

lemma firstFault?_eq_some : g.firstFault? rules = some (.shape r fault) ↔ g.fault? r = some fault ∧
    ∃ before after, rules = before ++ r :: after ∧ ∀ o ∈ before, g.fault? o = none := by
  unfold firstFault?
  rw [List.findSome?_eq_some_iff]
  simp only [Option.map_eq_some_iff, Option.map_eq_none_iff]
  constructor
  · rintro ⟨before, o, after, hrules, ⟨found, hfound, hshape⟩, hbefore⟩
    obtain ⟨rfl, rfl⟩ := Violation.shape.inj hshape
    exact ⟨hfound, before, after, hrules, hbefore⟩
  · rintro ⟨hfault, before, after, hrules, hbefore⟩
    exact ⟨before, r, after, hrules, ⟨fault, hfault, rfl⟩, hbefore⟩

lemma violation?_eq_shape : g.violation? = some (.shape r fault) ↔ g.firstFault? g.rules = some (.shape r fault) := by
  rw [violation?_eq_inspect, inspect_eq]
  cases g.firstFault? g.rules with
  | some violation => rw [Option.some_or]
  | none =>
    rw [Option.none_or]
    split <;> simp

lemma Consistent.firstFault?_eq_none (hg : g.Consistent) :
    g.firstFault? rules = none ↔ ∀ r ∈ rules, g.NormalShape r := by
  unfold firstFault?
  rw [List.findSome?_eq_none_iff]
  simp only [Option.map_eq_none_iff, hg.fault?_eq_none_iff]

lemma Consistent.violation?_of_shapes (hg : g.Consistent) (h : ∀ r ∈ g.rules, g.NormalShape r) :
    g.violation? = if g.StartErasedInUse then some (.nullableStart g.start) else none := by
  have hnotes : (g.rules.any (·.isEpsilon) && g.rules.any (·.uses g.start)) = true ↔ g.StartErasedInUse := by
    rw [Bool.and_eq_true, NormalShape.any_isEpsilon h, any_uses_iff, StartErasedInUse]
  rw [violation?_eq_inspect, inspect_eq, hg.firstFault?_eq_none.mpr h, Option.none_or]
  simp only [Bool.false_or, hnotes]

lemma Consistent.violation?_of_fault (hg : g.Consistent) (h : ¬∀ r ∈ g.rules, g.NormalShape r) :
    ∃ r fault, g.violation? = some (.shape r fault) := by
  have hsome : g.firstFault? g.rules ≠ none := mt hg.firstFault?_eq_none.mp h
  obtain ⟨violation, hviolation⟩ := Option.ne_none_iff_exists'.mp hsome
  obtain ⟨r, -, hr⟩ := List.exists_of_findSome?_eq_some hviolation
  obtain ⟨fault, -, rfl⟩ := Option.map_eq_some_iff.mp hr
  exact ⟨r, fault, violation?_eq_shape.mpr hviolation⟩

lemma Consistent.violation?_eq_none (hg : g.Consistent) :
    g.violation? = none ↔ (∀ r ∈ g.rules, g.NormalShape r) ∧ ¬g.StartErasedInUse := by
  by_cases h : ∀ r ∈ g.rules, g.NormalShape r
  · rw [hg.violation?_of_shapes h]
    simpa using fun _ => h
  · obtain ⟨r, fault, hviolation⟩ := hg.violation?_of_fault h
    simp [hviolation, h]

lemma Consistent.violation?_eq_nullableStart (hg : g.Consistent) (s : Symbol) :
    g.violation? = some (.nullableStart s) ↔
      s = g.start ∧ (∀ r ∈ g.rules, g.NormalShape r) ∧ g.StartErasedInUse := by
  by_cases h : ∀ r ∈ g.rules, g.NormalShape r
  · rw [hg.violation?_of_shapes h]
    by_cases hstart : g.StartErasedInUse
    · simpa [hstart, eq_comm (a := s)] using fun _ => h
    · simp [hstart]
  · obtain ⟨r, fault, hviolation⟩ := hg.violation?_of_fault h
    simp [hviolation, h]

lemma checkNormal_eq_ok_iff : g.checkNormal = .ok () ↔ g.violation? = none := by
  unfold checkNormal
  cases g.violation? <;> simp

lemma checkNormal_eq_error_iff {violation : Violation} :
    g.checkNormal = .error (.notNormal violation) ↔ g.violation? = some violation := by
  unfold checkNormal
  cases g.violation? <;> simp

/-! ### The order of the rules -/

section Order

variable {h : Grammar} (hstart : h.start = g.start)

include hstart

lemma NormalShape.of_perm (hterminals : h.terminals.Perm g.terminals)
    (hnonterminals : h.nonterminals.Perm g.nonterminals) (hr : h.NormalShape r) : g.NormalShape r := by
  cases hr with
  | epsilon => exact hstart ▸ .epsilon
  | terminal a ht => exact .terminal a (hterminals.subset ht)
  | pair a hb hc => exact .pair a (hnonterminals.subset hb) (hnonterminals.subset hc)

lemma normalShape_iff_of_perm (hterminals : h.terminals.Perm g.terminals)
    (hnonterminals : h.nonterminals.Perm g.nonterminals) : h.NormalShape r ↔ g.NormalShape r :=
  ⟨.of_perm hstart hterminals hnonterminals, .of_perm hstart.symm hterminals.symm hnonterminals.symm⟩

lemma startErasedInUse_iff_of_perm (hrules : h.rules.Perm g.rules) : h.StartErasedInUse ↔ g.StartErasedInUse := by
  unfold StartErasedInUse
  simp only [hstart, hrules.mem_iff]

lemma Consistent.checkNormal_iff_of_perm (hg : g.Consistent) (hh : h.Consistent)
    (hterminals : h.terminals.Perm g.terminals) (hnonterminals : h.nonterminals.Perm g.nonterminals)
    (hrules : h.rules.Perm g.rules) : h.checkNormal = .ok () ↔ g.checkNormal = .ok () := by
  rw [checkNormal_eq_ok_iff, checkNormal_eq_ok_iff, hg.violation?_eq_none, hh.violation?_eq_none,
    startErasedInUse_iff_of_perm hstart hrules]
  simp only [normalShape_iff_of_perm hstart hterminals hnonterminals, hrules.mem_iff]

end Order

/-- A grammar is in normal form if its rules have the three shapes and the start symbol is not both erased and in use.
The order of the rules does not matter for that. A rule is reported if it is the first without a shape, and the start
symbol if all rules have one; one pass over the rules is enough to find out. -/
theorem normal_form_is_decided_by_shapes (hg : g.Consistent) :
    (g.checkNormal = .ok () ↔ (∀ r ∈ g.rules, g.NormalShape r) ∧
      ¬(⟨g.start, []⟩ ∈ g.rules ∧ ∃ r ∈ g.rules, g.start ∈ r.right)) ∧
    (g.isNormal = true ↔ g.checkNormal = .ok ()) ∧
    (∀ h : Grammar, h.Consistent → h.start = g.start → h.terminals.Perm g.terminals →
      h.nonterminals.Perm g.nonterminals → h.rules.Perm g.rules →
        (h.checkNormal = .ok () ↔ g.checkNormal = .ok ())) ∧
    (∀ r, (∃ fault, g.checkNormal = .error (.notNormal (.shape r fault))) ↔
      ¬g.NormalShape r ∧ ∃ before after, g.rules = before ++ r :: after ∧ ∀ o ∈ before, g.NormalShape o) ∧
    (∀ s, g.checkNormal = .error (.notNormal (.nullableStart s)) ↔ s = g.start ∧ (∀ r ∈ g.rules, g.NormalShape r) ∧
      ⟨g.start, []⟩ ∈ g.rules ∧ ∃ r ∈ g.rules, g.start ∈ r.right) ∧
    g.violation? = g.inspect g.rules false false := by
  refine ⟨?_, ?_, fun h hh hstart => hg.checkNormal_iff_of_perm hstart hh, ?_, ?_, violation?_eq_inspect g⟩
  · exact checkNormal_eq_ok_iff.trans hg.violation?_eq_none
  · rw [checkNormal_eq_ok_iff, isNormal, Option.isNone_iff_eq_none]
  · intro r
    simp only [checkNormal_eq_error_iff, violation?_eq_shape, firstFault?_eq_some, hg.fault?_eq_none_iff]
    rw [exists_and_right, ← hg.fault?_eq_none_iff r, ← Option.ne_none_iff_exists']
  · intro s
    exact checkNormal_eq_error_iff.trans (hg.violation?_eq_nullableStart s)

/-- Three things are wrong: two rules without a shape, and a start symbol that is erased and in use. -/
def faultsAfterEpsilon : List Rule :=
  [⟨"S", []⟩, ⟨"A", ["a"]⟩, ⟨"A", ["S"]⟩, ⟨"S", ["a", "A"]⟩]

/-- The rule `A -> S` is reported, and in another order the rules are refused as well. -/
theorem report_on_faultsAfterEpsilon :
    ∃ g h, ofParts "S" ["a"] ["A"] faultsAfterEpsilon .standard = .ok g ∧
      ofParts "S" ["a"] ["A"] faultsAfterEpsilon.reverse .standard = .ok h ∧
      (∃ fault, g.checkNormal = .error (.notNormal (.shape ⟨"A", ["S"]⟩ fault))) ∧ ¬g.isNormal = true ∧
      ¬h.checkNormal = .ok () := by
  obtain ⟨g, hg, hcontents⟩ := ofParts_eq_ok "S" ["a"] ["A"] faultsAfterEpsilon .standard
    (by decide) (by decide) (by decide) (by decide) (by decide)
  obtain ⟨h, hh, hcontents'⟩ := ofParts_eq_ok "S" ["a"] ["A"] faultsAfterEpsilon.reverse .standard
    (by decide) (by decide) (by decide) (by decide) (by decide)
  obtain ⟨hstart, hterminals, hnonterminals, hrules, -⟩ := Contents.mk.inj hcontents
  obtain ⟨hstart', hterminals', hnonterminals', hrules', -⟩ := Contents.mk.inj hcontents'
  obtain ⟨-, hbool, hperm, hshape, -⟩ := normal_form_is_decided_by_shapes (.ofParts hg)
  have hreport : ∃ fault, g.checkNormal = .error (.notNormal (.shape ⟨"A", ["S"]⟩ fault)) := by
    refine (hshape _).mpr ⟨?_, [⟨"S", []⟩, ⟨"A", ["a"]⟩], [⟨"S", ["a", "A"]⟩], hrules, ?_⟩
    · intro h
      have hmem := h.mem_terminals
      simp [hterminals] at hmem
    · have hepsilon : g.NormalShape ⟨"S", []⟩ := hstart ▸ .epsilon
      have hterminal : g.NormalShape ⟨"A", ["a"]⟩ := .terminal "A" (by simp [hterminals])
      simpa using ⟨hepsilon, hterminal⟩
  have hrefused : ¬g.checkNormal = .ok () := by
    obtain ⟨fault, hfault⟩ := hreport
    simp [hfault]
  have htogether : h.checkNormal = .ok () ↔ g.checkNormal = .ok () := by
    apply hperm h (.ofParts hh) (hstart'.trans hstart.symm)
    · rw [hterminals, hterminals']
    · rw [hnonterminals, hnonterminals']
    · rw [hrules, hrules']
      exact List.reverse_perm _
  exact ⟨g, h, hg, hh, hreport, mt hbool.mp hrefused, mt htogether.mp hrefused⟩

end ContextFree.Grammar
