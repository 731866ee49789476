import ContextFree.Proofs.Renaming
import ContextFree.Proofs.StageResults

/-!
# The order of declarations

The order in which a grammar lists its symbols and rules decides in which order a conversion names new symbols,
splits rules and erases epsilon rules. Of all that, the result shows the new names and the order of its lists.
The argument follows two conversions stage by stage: each stage extends the renaming that relates the two grammars
by the names it makes up. No stage may follow the pruning, since it could make up a name that pruning took away.
-/

namespace ContextFree

open Grammar (Renames)

variable {g g' h h' : Grammar} {σ : Equiv.Perm Symbol}

lemma Stage.Makes.exists_renames {stage : Stage} (hg : stage.Makes g g') (hh : stage.Makes h h')
    (hren : Renames σ g h) (hgc : g.Consistent) (hhc : h.Consistent) (hg' : g'.Consistent) (hh' : h'.Consistent) :
    ∃ τ : Equiv.Perm Symbol, (∀ s ∈ g.symbols, τ s = σ s) ∧ Renames τ g' h' := by
  cases stage with
  | isolation =>
    obtain ⟨⟨names, hnames⟩, -⟩ := hg
    obtain ⟨⟨names', hnames'⟩, -⟩ := hh
    exact hren.exists_isolated hgc hg' hh' hnames hnames'
  | splitting =>
    obtain ⟨⟨names, hnames⟩, -⟩ := hg
    obtain ⟨⟨names', hnames'⟩, -⟩ := hh
    exact hren.exists_split hgc hg' hh' hnames hnames'
  | freshStart => exact hren.exists_startStep hg' hh' hg hh
  | erasure => exact ⟨σ, fun _ _ => rfl, hren.erased hg' hh' hg hh⟩
  | unitCollapse => exact ⟨σ, fun _ _ => rfl, hren.collapsed hgc hhc hg' hh' hg hh⟩
  | pruning => exact ⟨σ, fun _ _ => rfl, hren.pruned hg' hh' hg hh⟩

/-- Stages of which none but the last prunes take renamed grammars to renamed grammars. -/
lemma Converts.exists_renames {stages : List Stage} (hg : Converts stages g g') (hh : Converts stages h h')
    (hlast : Stage.pruning ∉ stages.dropLast) (hren : Renames σ g h) :
    ∃ τ : Equiv.Perm Symbol, (∀ s ∈ g.symbols, τ s = σ s) ∧ Renames τ g' h' := by
  induction hg generalizing h σ with
  | nil =>
    cases hh
    exact ⟨σ, fun _ _ => rfl, hren⟩
  | @cons stage stages g g₁ g' hgc hfirst hrest ih =>
    cases hh with
    | cons hhc hfirst' hrest' =>
      obtain ⟨τ₁, hsame₁, hren₁⟩ :=
        hfirst.exists_renames hfirst' hren hgc hhc hrest.consistent hrest'.consistent
      by_cases hstages : stages = []
      · subst hstages
        cases hrest
        cases hrest'
        exact ⟨τ₁, hsame₁, hren₁⟩
      · rw [List.dropLast_cons_of_ne_nil hstages] at hlast
        obtain ⟨hstage, hlast⟩ := List.ne_and_not_mem_of_not_mem_cons hlast
        obtain ⟨τ, hsame, hren'⟩ := ih hrest' hlast hren₁
        refine ⟨τ, ?_, hren'⟩
        intro s hs
        rw [hsame s (hfirst.mem_symbols hstage.symm hs), hsame₁ s hs]

variable {ω : Type} {observer : Observer ω}

/-- Grammars that list the same symbols and rules in another order have normal forms that differ in the names that
the conversions made up and in the order of their lists. -/
theorem declaration_order_shows_in_new_names_only (hg : g.Consistent) (hh : h.Consistent)
    (hstart : h.start = g.start) (hterminals : h.terminals.Perm g.terminals)
    (hnonterminals : h.nonterminals.Perm g.nonterminals) (hrules : h.rules.Perm g.rules)
    (hidle : observer.Idle) (hpatient : observer.Patient) (records : ω) :
    ∃ g' h' : Grammar, (∃ records', Grammar.normalize observer (g, records) = .ok () (g', records')) ∧
      (∃ records', Grammar.normalize observer (h, records) = .ok () (h', records')) ∧
      ∃ σ : Equiv.Perm Symbol, (∀ s ∈ g.symbols, σ s = s) ∧ (∀ s ∈ h.symbols, σ s = s) ∧ Renames σ g' h' := by
  have hren : Renames (.refl Symbol) g h := .of_perm hstart hterminals hnonterminals hrules
  obtain ⟨_, ⟨g', records₁⟩, hrun, hconverts⟩ := succeeds_converts hidle hpatient Stage.all hg records
  obtain ⟨_, ⟨h', records₂⟩, hrun', hconverts'⟩ := succeeds_converts hidle hpatient Stage.all hh records
  obtain ⟨σ, hsame, hren'⟩ := hconverts.exists_renames hconverts' (by decide) hren
  refine ⟨g', h', ⟨records₁, hrun⟩, ⟨records₂, hrun'⟩, σ, hsame, ?_, hren'⟩
  intro s hs
  exact hsame s (hren.mem_symbols.mp hs)

/-- The rules `S -> a b` and `S -> b a`. -/
def bothOrders : List Rule :=
  [⟨"S", ["a", "b"]⟩, ⟨"S", ["b", "a"]⟩]

/-- Whichever terminal comes up first gets the first name. -/
theorem normal_forms_of_bothOrders :
    ∃ g h g' h' : Grammar, Grammar.ofParts "S" ["a", "b"] [] bothOrders .standard = .ok g ∧
      Grammar.ofParts "S" ["b", "a"] [] bothOrders.reverse .standard = .ok h ∧
      Grammar.normalize Observer.idle (g, ()) = .ok () (g', ()) ∧
      Grammar.normalize Observer.idle (h, ()) = .ok () (h', ()) ∧
      ∃ σ : Equiv.Perm Symbol, σ "S" = "S" ∧ σ "a" = "a" ∧ σ "b" = "b" ∧ Renames σ g' h' := by
  obtain ⟨g, hg, hcontents⟩ := Grammar.ofParts_eq_ok "S" ["a", "b"] [] bothOrders .standard
    (by decide) (by decide) (by decide) (by decide) (by decide)
  obtain ⟨h, hh, hcontents'⟩ := Grammar.ofParts_eq_ok "S" ["b", "a"] [] bothOrders.reverse .standard
    (by decide) (by decide) (by decide) (by decide) (by decide)
  obtain ⟨hstart, hterminals, hnonterminals, hrules, -⟩ := Grammar.Contents.mk.inj hcontents
  obtain ⟨hstart', hterminals', hnonterminals', hrules', -⟩ := Grammar.Contents.mk.inj hcontents'
  obtain ⟨g', h', ⟨_, hrun⟩, ⟨_, hrun'⟩, σ, hsame, -, hren⟩ := declaration_order_shows_in_new_names_only
    (.ofParts hg) (.ofParts hh) (hstart'.trans hstart.symm) (by rw [hterminals, hterminals']; decide)
    (by rw [hnonterminals, hnonterminals']) (by rw [hrules, hrules']; exact List.reverse_perm _)
    (fun _ _ _ => rfl) (fun _ s => ⟨s, rfl⟩) ()
  rw [Grammar.symbols, hterminals, hnonterminals] at hsame
  exact ⟨g, h, g', h', hg, hh, hrun, hrun', σ, hsame "S" (by decide), hsame "a" (by decide),
    hsame "b" (by decide), hren⟩

end ContextFree
