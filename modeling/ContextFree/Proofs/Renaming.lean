import ContextFree.Proofs.EpsilonErasure
import ContextFree.Proofs.NewNames
import ContextFree.Proofs.Pruning
import ContextFree.Proofs.UnitChains
import Mathlib.Logic.Equiv.Fintype

/-!
# Renamed grammars

Two grammars can differ in the names of their symbols and in the order of their lists, and in nothing else. What a
stage makes of them then differs in this way, too. It is enough to show that symbols and rules of the one result
become symbols and rules of the other; the converse is the same statement about the inverse renaming. A stage that
names new symbols calls for a renaming that takes the new names to each other and agrees with the old renaming on
the old symbols.
-/

namespace ContextFree

open BreadthFirst (LeadsTo)

variable {σ τ : Equiv.Perm Symbol}

lemma perm_map_of_inverse {α β : Type} {f : α → β} {inverse : β → α} {l : List α} {l' : List β} (hl' : l'.Nodup)
    (hl : l.Nodup) (hleft : ∀ a, inverse (f a) = a) (hright : ∀ b, f (inverse b) = b)
    (hback : ∀ b ∈ l', inverse b ∈ l) (hforth : ∀ a ∈ l, f a ∈ l') : l'.Perm (l.map f) := by
  apply (List.perm_ext_iff_of_nodup hl' (hl.map (Function.LeftInverse.injective hleft))).mpr
  intro b
  rw [List.mem_map]
  constructor
  · intro hb
    exact ⟨inverse b, hback b hb, hright b⟩
  · rintro ⟨a, ha, rfl⟩
    exact hforth a ha

/-- A renaming of some symbols and new names for other things are parts of one renaming. -/
lemma exists_extending {κ : Type} (σ : Equiv.Perm Symbol) (base : List Symbol) (keys : List κ)
    (name name' : κ → Symbol) (hinj : ∀ k ∈ keys, ∀ l ∈ keys, name k = name l → k = l)
    (hinj' : ∀ k ∈ keys, ∀ l ∈ keys, name' k = name' l → k = l) (hnew : ∀ k ∈ keys, name k ∉ base)
    (hnew' : ∀ k ∈ keys, ∀ s ∈ base, name' k ≠ σ s) :
    ∃ τ : Equiv.Perm Symbol, (∀ s ∈ base, τ s = σ s) ∧ ∀ k ∈ keys, τ (name k) = name' k := by
  classical
  obtain ⟨τ, hτ⟩ := Equiv.Perm.exists_extending_pair
    (Sum.elim (fun s : {s // s ∈ base} => s.1) fun k : {k // k ∈ keys} => name k.1)
    (Sum.elim (fun s : {s // s ∈ base} => σ s.1) fun k : {k // k ∈ keys} => name' k.1)
    (Subtype.val_injective.sumElim (fun k l heq => Subtype.ext (hinj _ k.2 _ l.2 heq))
      fun s k heq => hnew _ k.2 (heq ▸ s.2))
    ((σ.injective.comp Subtype.val_injective).sumElim (fun k l heq => Subtype.ext (hinj' _ k.2 _ l.2 heq))
      fun s k heq => hnew' _ k.2 _ s.2 heq.symm)
  refine ⟨τ, ?_, ?_⟩
  · intro s hs
    exact hτ (.inl ⟨s, hs⟩)
  · intro k hk
    exact hτ (.inr ⟨k, hk⟩)

namespace Rule

variable {r : Rule}

/-- The rule with every symbol renamed. -/
def rename (σ : Equiv.Perm Symbol) (r : Rule) : Rule :=
  ⟨σ r.left, r.right.map σ⟩

@[simp] lemma rename_left : (r.rename σ).left = σ r.left :=
  rfl

@[simp] lemma rename_right : (r.rename σ).right = r.right.map σ :=
  rfl

@[simp] lemma rename_refl : r.rename (.refl Symbol) = r := by
  simp [rename]

@[simp] lemma rename_symm_rename : (r.rename σ).rename σ.symm = r := by
  simp [rename]

@[simp] lemma rename_rename_symm : (r.rename σ.symm).rename σ = r := by
  simp [rename]

lemma rename_injective : Function.Injective (rename σ) :=
  Function.LeftInverse.injective fun _ => rename_symm_rename

end Rule

namespace Grammar

variable {g g' h h' : Grammar} {r : Rule} {n s t z : Symbol}

lemma Consistent.rename_congr (hg : g.Consistent) (hr : r ∈ g.rules) (hsame : ∀ s ∈ g.symbols, τ s = σ s) :
    r.rename τ = r.rename σ := by
  have hright : r.right.map τ = r.right.map σ :=
    List.map_congr_left fun s hs => hsame s (hg.right_mem r hr s hs)
  rw [Rule.rename, Rule.rename, hright, hsame r.left (List.mem_append_right _ (hg.left_mem r hr))]

/-- Renamed symbols and rules of the first grammar are symbols and rules of the second. -/
structure Maps (σ : Equiv.Perm Symbol) (g h : Grammar) : Prop where
  start_eq : h.start = σ g.start
  terminal_mem : ∀ t ∈ g.terminals, σ t ∈ h.terminals
  nonterminal_mem : ∀ n ∈ g.nonterminals, σ n ∈ h.nonterminals
  rule_mem : ∀ r ∈ g.rules, r.rename σ ∈ h.rules

/-- The second grammar is the first with its symbols renamed, in some order. -/
structure Renames (σ : Equiv.Perm Symbol) (g h : Grammar) : Prop where
  start_eq : h.start = σ g.start
  terminals_perm : h.terminals.Perm (g.terminals.map σ)
  nonterminals_perm : h.nonterminals.Perm (g.nonterminals.map σ)
  rules_perm : h.rules.Perm (g.rules.map (Rule.rename σ))

namespace Renames

lemma of_perm (hstart : h.start = g.start) (hterminals : h.terminals.Perm g.terminals)
    (hnonterminals : h.nonterminals.Perm g.nonterminals) (hrules : h.rules.Perm g.rules) :
    Renames (.refl Symbol) g h := by
  have hid : Rule.rename (.refl Symbol) = id := funext fun _ => Rule.rename_refl
  constructor
  · exact hstart
  · simpa using hterminals
  · simpa using hnonterminals
  · simpa [hid] using hrules

lemma of_maps (hg : g.Consistent) (hh : h.Consistent) (hgh : Maps σ g h) (hhg : Maps σ.symm h g) :
    Renames σ g h := by
  constructor
  · exact hgh.start_eq
  · exact perm_map_of_inverse hh.terminals_nodup hg.terminals_nodup σ.symm_apply_apply σ.apply_symm_apply
      hhg.terminal_mem hgh.terminal_mem
  · exact perm_map_of_inverse hh.nonterminals_nodup hg.nonterminals_nodup σ.symm_apply_apply σ.apply_symm_apply
      hhg.nonterminal_mem hgh.nonterminal_mem
  · exact perm_map_of_inverse hh.rules_nodup hg.rules_nodup (fun _ => Rule.rename_symm_rename)
      (fun _ => Rule.rename_rename_symm) hhg.rule_mem hgh.rule_mem

variable (hren : Renames σ g h)

include hren

lemma mem_terminals : σ t ∈ h.terminals ↔ t ∈ g.terminals := by
  rw [hren.terminals_perm.mem_iff, List.mem_map_of_injective σ.injective]

lemma mem_nonterminals : σ n ∈ h.nonterminals ↔ n ∈ g.nonterminals := by
  rw [hren.nonterminals_perm.mem_iff, List.mem_map_of_injective σ.injective]

lemma mem_symbols : σ s ∈ h.symbols ↔ s ∈ g.symbols := by
  rw [symbols, symbols, List.mem_append, List.mem_append, hren.mem_terminals, hren.mem_nonterminals]

lemma mem_rules : r.rename σ ∈ h.rules ↔ r ∈ g.rules := by
  rw [hren.rules_perm.mem_iff, List.mem_map_of_injective Rule.rename_injective]

lemma exists_rule (hr : r ∈ h.rules) : ∃ o ∈ g.rules, o.rename σ = r := by
  rwa [hren.rules_perm.mem_iff, List.mem_map] at hr

lemma maps : Maps σ g h where
  start_eq := hren.start_eq
  terminal_mem _ ht := hren.mem_terminals.mpr ht
  nonterminal_mem _ hn := hren.mem_nonterminals.mpr hn
  rule_mem _ hr := hren.mem_rules.mpr hr

lemma symm : Renames σ.symm h g where
  start_eq := by rw [hren.start_eq, σ.symm_apply_apply]
  terminals_perm := by
    have hperm := (hren.terminals_perm.map σ.symm).symm
    rwa [List.map_map, σ.symm_comp_self, List.map_id] at hperm
  nonterminals_perm := by
    have hperm := (hren.nonterminals_perm.map σ.symm).symm
    rwa [List.map_map, σ.symm_comp_self, List.map_id] at hperm
  rules_perm := by
    have hperm := (hren.rules_perm.map (Rule.rename σ.symm)).symm
    have hid : Rule.rename σ.symm ∘ Rule.rename σ = id := by
      funext r
      exact Rule.rename_symm_rename
    rwa [List.map_map, hid, List.map_id] at hperm

lemma congr (hg : g.Consistent) (hsame : ∀ s ∈ g.symbols, τ s = σ s) : Renames τ g h := by
  have hterm : g.terminals.map τ = g.terminals.map σ :=
    List.map_congr_left fun t ht => hsame t (List.mem_append_left _ ht)
  have hnon : g.nonterminals.map τ = g.nonterminals.map σ :=
    List.map_congr_left fun n hn => hsame n (List.mem_append_right _ hn)
  have hrules : g.rules.map (Rule.rename τ) = g.rules.map (Rule.rename σ) :=
    List.map_congr_left fun r hr => hg.rename_congr hr hsame
  constructor
  · rw [hren.start_eq, hsame g.start (List.mem_append_right _ hg.start_mem)]
  · rw [hterm]
    exact hren.terminals_perm
  · rw [hnon]
    exact hren.nonterminals_perm
  · rw [hrules]
    exact hren.rules_perm

end Renames

/-! ### Stages that name nothing -/

lemma Renames.maps_of_rulesOnly (hren : Renames σ g h) (hg : RulesOnly g g') (hh : RulesOnly h h')
    (hrules : ∀ r ∈ g'.rules, r.rename σ ∈ h'.rules) : Maps σ g' h' where
  start_eq := by rw [hg.start_eq, hh.start_eq, hren.start_eq]
  terminal_mem t ht := by
    rw [hg.terminals_eq] at ht
    rw [hh.terminals_eq]
    exact hren.mem_terminals.mpr ht
  nonterminal_mem n hn := by
    rw [hg.nonterminals_eq] at hn
    rw [hh.nonterminals_eq]
    exact hren.mem_nonterminals.mpr hn
  rule_mem := hrules

lemma Renames.vanishing (hren : Renames σ g h) (hs : g.Vanishing s) : h.Vanishing (σ s) := by
  induction hs with
  | @intro r mem ne_start _ ih =>
    apply Vanishing.intro (r := r.rename σ)
    · exact hren.mem_rules.mpr mem
    · rw [hren.start_eq]
      exact fun heq => ne_start (σ.injective heq)
    · intro s hs
      obtain ⟨u, hu, rfl⟩ := List.mem_map.mp hs
      exact ih u hu

lemma Erased.maps (hren : Renames σ g h) (hg : Erased g g') (hh : Erased h h') : Maps σ g' h' := by
  apply hren.maps_of_rulesOnly hg.rulesOnly hh.rulesOnly
  intro r hr
  obtain ⟨⟨o, ho, hleft, hdrops⟩, hloop, hepsilon⟩ := (hg.mem_rules r).mp hr
  refine (hh.mem_rules _).mpr ⟨⟨o.rename σ, hren.mem_rules.mpr ho, congrArg σ hleft, ?_⟩, ?_, ?_⟩
  · exact hdrops.map fun s hs => hren.vanishing hs
  · intro heq
    apply hren.mem_rules.mpr
    apply hloop
    exact List.map_injective_iff.mpr σ.injective heq
  · intro heq
    rw [hren.start_eq]
    exact congrArg σ (hepsilon (List.map_eq_nil_iff.mp heq))

lemma Renames.erased (hren : Renames σ g h) (hg' : g'.Consistent) (hh' : h'.Consistent) (hg : Erased g g')
    (hh : Erased h h') : Renames σ g' h' :=
  .of_maps hg' hh' (hg.maps hren hh) (hh.maps hren.symm hg)

lemma Renames.isUnit_rename (hren : Renames σ g h) (hg : g.Consistent) (hh : h.Consistent) (r : Rule) :
    h.isUnit (r.rename σ) = g.isUnit r := by
  rw [Bool.eq_iff_iff, hg.isUnit_iff, hh.isUnit_iff]
  constructor
  · rintro ⟨s, hs, hright⟩
    obtain ⟨u, hu, rfl⟩ := List.map_eq_singleton_iff.mp hright
    exact ⟨u, hren.mem_nonterminals.mp hs, hu⟩
  · rintro ⟨s, hs, hright⟩
    exact ⟨σ s, hren.mem_nonterminals.mpr hs, by rw [Rule.rename_right, hright, List.map_singleton]⟩

lemma Renames.leadsTo_unitSuccessors (hren : Renames σ g h) (hg : g.Consistent) (hh : h.Consistent)
    (hlead : LeadsTo g.unitSuccessors n s) : LeadsTo h.unitSuccessors (σ n) (σ s) := by
  apply Relation.ReflTransGen.lift σ _ n s hlead
  intro k m hm
  obtain ⟨hmem, hnon⟩ := hg.mem_unitSuccessors.mp hm
  exact hh.mem_unitSuccessors.mpr ⟨hren.maps.rule_mem _ hmem, hren.mem_nonterminals.mpr hnon⟩

lemma Collapsed.maps (hren : Renames σ g h) (hgc : g.Consistent) (hhc : h.Consistent) (hg : Collapsed g g')
    (hh : Collapsed h h') : Maps σ g' h' := by
  apply hren.maps_of_rulesOnly hg.rulesOnly hh.rulesOnly
  intro r hr
  obtain ⟨hunit, m, hlead, hm⟩ := (hg.mem_rules r).mp hr
  refine (hh.mem_rules _).mpr ⟨?_, σ m, ?_, hren.maps.rule_mem _ hm⟩
  · rw [hren.isUnit_rename hgc hhc]
    exact hunit
  · exact hren.leadsTo_unitSuccessors hgc hhc hlead

lemma Renames.collapsed (hren : Renames σ g h) (hgc : g.Consistent) (hhc : h.Consistent) (hg' : g'.Consistent)
    (hh' : h'.Consistent) (hg : Collapsed g g') (hh : Collapsed h h') : Renames σ g' h' :=
  .of_maps hg' hh' (hg.maps hren hgc hhc hh) (hh.maps hren.symm hhc hgc hg)

lemma Renames.dead (hren : Renames σ g h) (hn : g.Dead n) : h.Dead (σ n) := by
  induction hn with
  | intro mem ne_start block block_mem _ ih =>
    apply Dead.of_forall
    · exact hren.mem_nonterminals.mpr mem
    · rw [hren.start_eq]
      exact fun heq => ne_start (σ.injective heq)
    · intro r hr hleft
      obtain ⟨o, ho, rfl⟩ := hren.exists_rule hr
      have hleft := σ.injective hleft
      exact ⟨_, List.mem_map_of_mem (block_mem o ho hleft), ih o ho hleft⟩

lemma Renames.living (hren : Renames σ g h) (hr : g.Living r) : h.Living (r.rename σ) := by
  have hdead : ∀ s, ¬g.Dead s → ¬h.Dead (σ s) := by
    intro s hs hdead
    have := hren.symm.dead hdead
    rw [σ.symm_apply_apply] at this
    exact hs this
  obtain ⟨hmem, hleft, hright⟩ := hr
  refine ⟨hren.mem_rules.mpr hmem, hdead r.left hleft, ?_⟩
  intro s hs
  obtain ⟨u, hu, rfl⟩ := List.mem_map.mp hs
  exact hdead u (hright u hu)

lemma Renames.needed (hren : Renames σ g h) (hn : g.Needed n) : h.Needed (σ n) := by
  unfold Needed
  rw [hren.start_eq]
  apply Relation.ReflTransGen.lift σ _ g.start n hn
  rintro k m ⟨hm, r, hr, rfl, hmem⟩
  exact ⟨hren.mem_nonterminals.mpr hm, r.rename σ, hren.living hr, rfl, List.mem_map_of_mem hmem⟩

lemma Pruned.maps (hren : Renames σ g h) (hg : Pruned g g') (hh : Pruned h h') : Maps σ g' h' := by
  have hrules : ∀ r ∈ g'.rules, r.rename σ ∈ h'.rules := by
    intro r hr
    obtain ⟨hliving, hneeded⟩ := (hg.mem_rules r).mp hr
    exact (hh.mem_rules _).mpr ⟨hren.living hliving, hren.needed hneeded⟩
  constructor
  · rw [hg.start_eq, hh.start_eq, hren.start_eq]
  · intro t ht
    obtain ⟨hterm, r, hr, hmem⟩ := (hg.mem_terminals t).mp ht
    exact (hh.mem_terminals _).mpr ⟨hren.mem_terminals.mpr hterm, _, hrules r hr, List.mem_map_of_mem hmem⟩
  · intro n hn
    exact (hh.mem_nonterminals _).mpr (hren.needed ((hg.mem_nonterminals n).mp hn))
  · exact hrules

lemma Renames.pruned (hren : Renames σ g h) (hg' : g'.Consistent) (hh' : h'.Consistent) (hg : Pruned g g')
    (hh : Pruned h h') : Renames σ g' h' :=
  .of_maps hg' hh' (hg.maps hren hh) (hh.maps hren.symm hg)

/-! ### Stages that name new symbols -/

section NewNames

variable {names names' : Symbol → Symbol}

lemma Renames.mem_mixedTerminals (hren : Renames σ g h) : σ t ∈ h.mixedTerminals ↔ t ∈ g.mixedTerminals := by
  simp only [mixedTerminals, List.mem_filter, hren.mem_terminals, List.any_eq_true, Rule.mixes_iff]
  apply and_congr_right
  intro _
  constructor
  · rintro ⟨r, hr, hlength, hmem⟩
    obtain ⟨o, ho, rfl⟩ := hren.exists_rule hr
    refine ⟨o, ho, ?_, (List.mem_map_of_injective σ.injective).mp hmem⟩
    rwa [Rule.rename_right, List.length_map] at hlength
  · rintro ⟨r, hr, hlength, hmem⟩
    exact ⟨r.rename σ, hren.mem_rules.mpr hr, by simpa using hlength, List.mem_map_of_mem hmem⟩

lemma rename_isolated (hnames : ∀ s, σ (names s) = names' (σ s)) (r : Rule) :
    (r.isolated names).rename σ = (r.rename σ).isolated names' := by
  unfold Rule.isolated
  rw [Rule.rename_right, List.length_map]
  split_ifs
  · simp [Rule.rename, hnames]
  · rfl

lemma Isolated.maps (hren : Renames σ g h) (hg : Isolated names g g') (hh : Isolated names' h h')
    (hnames : ∀ s, σ (names s) = names' (σ s)) : Maps σ g' h' := by
  constructor
  · rw [hg.start_eq, hh.start_eq, hren.start_eq]
  · rw [hg.terminals_eq, hh.terminals_eq]
    exact hren.maps.terminal_mem
  · intro n hn
    rcases (hg.mem_nonterminals n).mp hn with hn | ⟨t, ht, rfl⟩
    · exact (hh.mem_nonterminals _).mpr (.inl (hren.mem_nonterminals.mpr hn))
    · exact (hh.mem_nonterminals _).mpr (.inr ⟨σ t, hren.mem_mixedTerminals.mpr ht, (hnames t).symm⟩)
  · intro r hr
    rcases (hg.mem_rules r).mp hr with ⟨o, ho, rfl⟩ | ⟨t, ht, rfl⟩
    · exact (hh.mem_rules _).mpr (.inl ⟨o.rename σ, hren.mem_rules.mpr ho, (rename_isolated hnames o).symm⟩)
    · refine (hh.mem_rules _).mpr (.inr ⟨σ t, hren.mem_mixedTerminals.mpr ht, ?_⟩)
      simp [Rule.rename, hnames]

lemma Renames.exists_isolated (hren : Renames σ g h) (hgc : g.Consistent) (hg' : g'.Consistent)
    (hh' : h'.Consistent) (hg : Isolated names g g') (hh : Isolated names' h h') :
    ∃ τ : Equiv.Perm Symbol, (∀ s ∈ g.symbols, τ s = σ s) ∧ Renames τ g' h' := by
  have hmixed : ∀ t ∈ g.mixedTerminals, σ t ∈ h.mixedTerminals := fun t ht => hren.mem_mixedTerminals.mpr ht
  obtain ⟨τ, hsame, hkeys⟩ := exists_extending σ g.symbols g.mixedTerminals names (fun t => names' (σ t))
    hg.name_inj
    (fun t ht u hu heq => σ.injective (hh.name_inj _ (hmixed t ht) _ (hmixed u hu) heq))
    hg.name_fresh
    (fun t ht s hs heq => hh.name_fresh _ (hmixed t ht) (heq ▸ hren.mem_symbols.mpr hs))
  have hren' : Renames τ g h := hren.congr hgc hsame
  have hnames : ∀ s, τ (names s) = names' (τ s) := by
    intro s
    by_cases hs : s ∈ g.mixedTerminals
    · rw [hkeys s hs, hsame s (List.mem_append_left _ (List.mem_of_mem_filter hs))]
    · rw [hg.name_other s hs, hh.name_other (τ s) (mt hren'.mem_mixedTerminals.mp hs)]
  refine ⟨τ, hsame, .of_maps hg' hh' (hg.maps hren' hh hnames) (hh.maps hren'.symm hg ?_)⟩
  intro s
  rw [Equiv.symm_apply_eq, hnames, τ.apply_symm_apply]

end NewNames

section NewRests

variable {names names' : Rule → List Symbol → Symbol}

lemma cuts_map {f : Symbol → Symbol} (w : List Symbol) : cuts (w.map f) = (cuts w).map (List.map f) := by
  induction w with
  | nil => rfl
  | cons s rest ih =>
    rw [List.map_cons, cuts, cuts, List.length_map, ih]
    split_ifs <;> rfl

lemma map_rename_chain {names names' : List Symbol → Symbol} {w : List Symbol}
    (hnames : ∀ v ∈ cuts w, σ (names v) = names' (v.map σ)) (left : Symbol) :
    (chain names left w).map (Rule.rename σ) = chain names' (σ left) (w.map σ) := by
  induction w generalizing left with
  | nil => rfl
  | cons s rest ih =>
    rw [cuts] at hnames
    rw [List.map_cons, chain, chain, List.length_map]
    split_ifs at hnames ⊢
    · obtain ⟨hrest, hnames⟩ := List.forall_mem_cons.mp hnames
      rw [List.map_cons, ih hnames, hrest]
      simp [Rule.rename, hrest]
    · simp [Rule.rename]

lemma Split.maps (hren : Renames σ g h) (hg : Split names g g') (hh : Split names' h h')
    (hnames : ∀ r ∈ g.rules, ∀ v ∈ cuts r.right, σ (names r v) = names' (r.rename σ) (v.map σ)) :
    Maps σ g' h' := by
  constructor
  · rw [hg.start_eq, hh.start_eq, hren.start_eq]
  · rw [hg.terminals_eq, hh.terminals_eq]
    exact hren.maps.terminal_mem
  · intro n hn
    rcases (hg.mem_nonterminals n).mp hn with hn | ⟨r, hr, v, hv, rfl⟩
    · exact (hh.mem_nonterminals _).mpr (.inl (hren.mem_nonterminals.mpr hn))
    · refine (hh.mem_nonterminals _).mpr (.inr ⟨r.rename σ, hren.mem_rules.mpr hr, v.map σ, ?_, ?_⟩)
      · rw [Rule.rename_right, cuts_map]
        exact List.mem_map_of_mem hv
      · rw [hnames r hr v hv]
  · intro o ho
    obtain ⟨r, hr, ho⟩ := (hg.mem_rules o).mp ho
    refine (hh.mem_rules _).mpr ⟨r.rename σ, hren.mem_rules.mpr hr, ?_⟩
    rw [Rule.rename_left, Rule.rename_right, ← map_rename_chain (hnames r hr)]
    exact List.mem_map_of_mem ho

/-- The rests that splitting names, with the rules they are cut off. -/
def restKeys (g : Grammar) : List (Rule × List Symbol) :=
  g.rules.flatMap fun r => (cuts r.right).map (r, ·)

lemma mem_restKeys {k : Rule × List Symbol} : k ∈ g.restKeys ↔ k.1 ∈ g.rules ∧ k.2 ∈ cuts k.1.right := by
  obtain ⟨r, v⟩ := k
  simp [restKeys]

lemma Renames.exists_split (hren : Renames σ g h) (hgc : g.Consistent) (hg' : g'.Consistent)
    (hh' : h'.Consistent) (hg : Split names g g') (hh : Split names' h h') :
    ∃ τ : Equiv.Perm Symbol, (∀ s ∈ g.symbols, τ s = σ s) ∧ Renames τ g' h' := by
  have hkey : ∀ k ∈ g.restKeys, k.1.rename σ ∈ h.rules ∧ k.2.map σ ∈ cuts (k.1.rename σ).right := by
    intro k hk
    obtain ⟨hr, hv⟩ := mem_restKeys.mp hk
    refine ⟨hren.mem_rules.mpr hr, ?_⟩
    rw [Rule.rename_right, cuts_map]
    exact List.mem_map_of_mem hv
  have hinj : ∀ k ∈ g.restKeys, ∀ l ∈ g.restKeys, names k.1 k.2 = names l.1 l.2 → k = l := by
    intro k hk l hl heq
    obtain ⟨hr, hv⟩ := mem_restKeys.mp hk
    obtain ⟨ho, hw⟩ := mem_restKeys.mp hl
    obtain ⟨hrule, hrest⟩ := hg.name_inj k.1 hr k.2 hv l.1 ho l.2 hw heq
    exact Prod.ext hrule hrest
  have hinj' : ∀ k ∈ g.restKeys, ∀ l ∈ g.restKeys,
      names' (k.1.rename σ) (k.2.map σ) = names' (l.1.rename σ) (l.2.map σ) → k = l := by
    intro k hk l hl heq
    obtain ⟨hr, hv⟩ := hkey k hk
    obtain ⟨ho, hw⟩ := hkey l hl
    obtain ⟨hrule, hrest⟩ := hh.name_inj _ hr _ hv _ ho _ hw heq
    exact Prod.ext (Rule.rename_injective hrule) (List.map_injective_iff.mpr σ.injective hrest)
  obtain ⟨τ, hsame, hkeys⟩ := exists_extending σ g.symbols g.restKeys (fun k => names k.1 k.2)
    (fun k => names' (k.1.rename σ) (k.2.map σ)) hinj hinj'
    (fun k hk => hg.name_fresh _ (mem_restKeys.mp hk).1 _ (mem_restKeys.mp hk).2)
    (fun k hk s hs heq => hh.name_fresh _ (hkey k hk).1 _ (hkey k hk).2 (heq ▸ hren.mem_symbols.mpr hs))
  have hren' : Renames τ g h := hren.congr hgc hsame
  have hnames : ∀ r ∈ g.rules, ∀ v ∈ cuts r.right, τ (names r v) = names' (r.rename τ) (v.map τ) := by
    intro r hr v hv
    have hrest : v.map τ = v.map σ := by
      apply List.map_congr_left
      intro s hs
      exact hsame s (hgc.right_mem r hr s ((isSuffix_of_mem_cuts hv).1.subset hs))
    rw [hrest, hgc.rename_congr hr hsame]
    exact hkeys (r, v) (mem_restKeys.mpr ⟨hr, hv⟩)
  refine ⟨τ, hsame, .of_maps hg' hh' (hg.maps hren' hh hnames) (hh.maps hren'.symm hg ?_)⟩
  intro r hr v hv
  obtain ⟨o, ho, rfl⟩ := hren'.exists_rule hr
  rw [Rule.rename_right, cuts_map] at hv
  obtain ⟨w, hw, rfl⟩ := List.mem_map.mp hv
  rw [← hnames o ho w hw]
  simp

end NewRests

lemma StartStep.maps {z' : Symbol} (hren : Renames σ g h) (hg : StartStep z g g') (hh : StartStep z' h h')
    (hname : σ z = z') : Maps σ g' h' := by
  subst hname
  constructor
  · rw [hg.start_eq, hh.start_eq]
  · rw [hg.terminals_eq, hh.terminals_eq]
    exact hren.maps.terminal_mem
  · intro n hn
    rw [hg.nonterminals_eq, List.mem_append, List.mem_singleton] at hn
    rw [hh.nonterminals_eq, List.mem_append, List.mem_singleton]
    exact hn.imp hren.mem_nonterminals.mpr (congrArg σ)
  · intro r hr
    rcases hg.mem_rules.mp hr with hr | rfl
    · exact hh.mem_rules.mpr (.inl (hren.mem_rules.mpr hr))
    · exact hh.mem_rules.mpr (.inr (by simp [Rule.rename, hren.start_eq]))

lemma Renames.exists_startStep {z' : Symbol} (hren : Renames σ g h) (hg' : g'.Consistent) (hh' : h'.Consistent)
    (hg : StartStep z g g') (hh : StartStep z' h h') :
    ∃ τ : Equiv.Perm Symbol, (∀ s ∈ g.symbols, τ s = σ s) ∧ Renames τ g' h' := by
  obtain ⟨τ, hsame, hkeys⟩ := exists_extending σ g.symbols [()] (fun _ => z) (fun _ => z') (by simp) (by simp)
    (fun _ _ => hg.fresh) (fun _ _ s hs heq => hh.fresh (heq ▸ hren.mem_symbols.mpr hs))
  have hren' : Renames τ g h := hren.congr hg.consistent hsame
  have hname : τ z = z' := hkeys () List.mem_cons_self
  refine ⟨τ, hsame, .of_maps hg' hh' (hg.maps hren' hh hname) (hh.maps hren'.symm hg ?_)⟩
  rw [← hname, τ.symm_apply_apply]

end Grammar

end ContextFree
