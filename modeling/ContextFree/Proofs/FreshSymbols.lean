import ContextFree.Proofs.Consistency
import ContextFree.Proofs.Yields

/-!
# New symbols that stand for sequences

Three stages name a sequence by a new symbol. Reading the symbol as the sequence turns derivations in the new
rules into derivations in the old ones, so nothing changes for sequences without the new symbol.
-/

namespace ContextFree

/-- A symbol read as a sequence, and any other symbol as itself. -/
def standFor (z : Symbol) (e : List Symbol) (s : Symbol) : List Symbol :=
  if s = z then e else [s]

@[simp] lemma standFor_self (z : Symbol) (e : List Symbol) : standFor z e z = e :=
  if_pos rfl

lemma standFor_of_ne {z s : Symbol} (h : s ≠ z) (e : List Symbol) : standFor z e s = [s] :=
  if_neg h

lemma flatMap_standFor {z : Symbol} {u : List Symbol} (hz : z ∉ u) (e : List Symbol) :
    u.flatMap (standFor z e) = u := by
  induction u with
  | nil => rfl
  | cons s u ih =>
    obtain ⟨hs, hu⟩ := List.ne_and_not_mem_of_not_mem_cons hz
    rw [List.flatMap_cons, standFor_of_ne hs.symm, ih hu, List.singleton_append]

/-- Rules that name a sequence by a new symbol derive what the old rules derive, apart from that symbol. -/
theorem derives_iff_of_standFor {rules rules' : List Rule} {z : Symbol} {e u w : List Symbol}
    (hold : ∀ r ∈ rules, Derives rules' [r.left] r.right)
    (hnew : ∀ r ∈ rules', Derives rules (standFor z e r.left) (r.right.flatMap (standFor z e)))
    (hu : z ∉ u) (hw : z ∉ w) : Derives rules' u w ↔ Derives rules u w := by
  constructor
  · intro h
    have := h.flatMap hnew
    rwa [flatMap_standFor hu, flatMap_standFor hw] at this
  · exact fun h => h.of_rules hold

namespace Grammar

lemma Consistent.left_ne_of_fresh {g : Grammar} {z : Symbol} {r : Rule} (hg : g.Consistent) (hz : z ∉ g.symbols)
    (hr : r ∈ g.rules) : r.left ≠ z :=
  fun h => hz (List.mem_append_right _ (h ▸ hg.left_mem r hr))

lemma Consistent.notMem_right_of_fresh {g : Grammar} {z : Symbol} {r : Rule} (hg : g.Consistent)
    (hz : z ∉ g.symbols) (hr : r ∈ g.rules) : z ∉ r.right :=
  fun h => hz (hg.right_mem r hr z h)

/-- The second grammar has the terminals of the first, its nonterminals and perhaps more, and generates the same
from each nonterminal of the first. -/
structure Elaborates (g g' : Grammar) : Prop where
  terminals_eq : g'.terminals = g.terminals
  isPrefix_nonterminals : g.nonterminals <+: g'.nonterminals
  generatesFrom_iff : ∀ s ∈ g.nonterminals, ∀ w, g'.GeneratesFrom s w ↔ g.GeneratesFrom s w

namespace Elaborates

variable {g g' g'' : Grammar}

lemma refl (g : Grammar) : Elaborates g g :=
  ⟨rfl, List.prefix_rfl, fun _ _ _ => Iff.rfl⟩

lemma trans (h : Elaborates g g') (h' : Elaborates g' g'') : Elaborates g g'' where
  terminals_eq := h'.terminals_eq.trans h.terminals_eq
  isPrefix_nonterminals := h.isPrefix_nonterminals.trans h'.isPrefix_nonterminals
  generatesFrom_iff s hs w :=
    (h'.generatesFrom_iff s (h.isPrefix_nonterminals.subset hs) w).trans (h.generatesFrom_iff s hs w)

lemma generates_iff (h : Elaborates g g') (hg : g.Consistent) (hstart : g'.start = g.start) (w : List Symbol) :
    g'.Generates w ↔ g.Generates w := by
  unfold Generates
  rw [hstart]
  exact h.generatesFrom_iff g.start hg.start_mem w

end Elaborates

/-- A grammar gains a new nonterminal, other rules and perhaps another start symbol. -/
structure NamingStep (z start : Symbol) (rules : List Rule) (g g' : Grammar) : Prop where
  consistent : g.Consistent
  fresh : z ∉ g.symbols
  contents_eq : g'.contents = ⟨start, g.terminals, g.nonterminals ++ [z], rules, g.namer⟩

namespace NamingStep

variable {g g' : Grammar} {z start s : Symbol} {rules : List Rule} {r : Rule} {e : List Symbol}

lemma start_eq (h : NamingStep z start rules g g') : g'.start = start :=
  congrArg Contents.start h.contents_eq

lemma terminals_eq (h : NamingStep z start rules g g') : g'.terminals = g.terminals :=
  congrArg Contents.terminals h.contents_eq

lemma nonterminals_eq (h : NamingStep z start rules g g') : g'.nonterminals = g.nonterminals ++ [z] :=
  congrArg Contents.nonterminals h.contents_eq

lemma rules_eq (h : NamingStep z start rules g g') : g'.rules = rules :=
  congrArg Contents.rules h.contents_eq

lemma mem_symbols (h : NamingStep z start rules g g') : s ∈ g'.symbols ↔ s ∈ g.symbols ∨ s = z := by
  rw [symbols, symbols, h.terminals_eq, h.nonterminals_eq]
  simp [or_assoc]

lemma ne_fresh (h : NamingStep z start rules g g') (hs : s ∈ g.symbols) : s ≠ z :=
  fun e => h.fresh (e ▸ hs)

lemma notMem_right (h : NamingStep z start rules g g') (hr : r ∈ g.rules) : z ∉ r.right :=
  h.consistent.notMem_right_of_fresh h.fresh hr

lemma left_ne (h : NamingStep z start rules g g') (hr : r ∈ g.rules) : r.left ≠ z :=
  h.consistent.left_ne_of_fresh h.fresh hr

lemma derives_standFor (h : NamingStep z start rules g g') (hr : r ∈ g.rules) :
    Derives g.rules (standFor z e r.left) (r.right.flatMap (standFor z e)) := by
  rw [standFor_of_ne (h.left_ne hr), flatMap_standFor (h.notMem_right hr)]
  exact Derives.of_mem hr

lemma elaborates (h : NamingStep z start rules g g')
    (hold : ∀ r ∈ g.rules, Derives rules [r.left] r.right)
    (hnew : ∀ r ∈ rules, Derives g.rules (standFor z e r.left) (r.right.flatMap (standFor z e))) :
    Elaborates g g' where
  terminals_eq := h.terminals_eq
  isPrefix_nonterminals := h.nonterminals_eq ▸ List.prefix_append _ _
  generatesFrom_iff s hs w := by
    unfold GeneratesFrom
    rw [h.terminals_eq, h.rules_eq]
    apply and_congr_right
    intro hw
    apply derives_iff_of_standFor hold hnew
    · rw [List.mem_singleton]
      exact (h.ne_fresh (List.mem_append_right _ hs)).symm
    · exact fun hz => h.fresh (List.mem_append_left _ (hw z hz))

end NamingStep

end Grammar

end ContextFree
