import ContextFree.Proofs.Attainability
import ContextFree.Proofs.Pruning

/-!
# The order of discovery

A breadth-first walk discovers the nodes in the order of their distance from the root. Its queue holds nodes of two
distances at most, the nearer ones first, and the nodes that are nearer than the first in the queue have all had their
turn; so what is discovered next is one step farther than the node that leads to it. For grammars this is the order in
which the nonterminals that can be reached are listed.
-/

namespace ContextFree

namespace BreadthFirst

variable {α : Type} {k : Nat} {next : α → List α} {nodes : List α} {root x y : α} {done queue : List α}

/-! ### Distances -/

/-- One node leads in so many steps to another. -/
inductive LeadsIn (step : α → α → Prop) (x : α) : Nat → α → Prop where
  | refl : LeadsIn step x 0 x
  | tail {k : Nat} {y z : α} (before : LeadsIn step x k y) (last : step y z) : LeadsIn step x (k + 1) z

/-- The number of steps on the shortest way from one node to another that it leads to. -/
noncomputable def distance (step : α → α → Prop) (x y : α) : Nat :=
  sInf {k | LeadsIn step x k y}

lemma exists_leadsIn {step : α → α → Prop} (h : Relation.ReflTransGen step x y) : ∃ k, LeadsIn step x k y := by
  induction h with
  | refl => exact ⟨0, .refl⟩
  | tail _ last ih =>
    obtain ⟨k, hk⟩ := ih
    exact ⟨k + 1, hk.tail last⟩

lemma LeadsIn.reflTransGen {step : α → α → Prop} (h : LeadsIn step x k y) : Relation.ReflTransGen step x y := by
  induction h with
  | refl => exact .refl
  | tail _ last ih => exact ih.tail last

lemma distance_le {step : α → α → Prop} (h : LeadsIn step x k y) : distance step x y ≤ k :=
  Nat.sInf_le h

lemma leadsIn_distance {step : α → α → Prop} (h : Relation.ReflTransGen step x y) :
    LeadsIn step x (distance step x y) y :=
  Nat.sInf_mem (exists_leadsIn h)

/-! ### The queue -/

/-- A walk without a bound on its steps, which ends when the queue is empty. -/
inductive Drains [BEq α] (next : α → List α) : List α → List α → List α → Prop where
  | done (found : List α) : Drains next found [] found
  | visit {done queue found : List α} {x : α}
      (rest : Drains next (done ++ [x]) (queue ++ unseen (done ++ x :: queue) (next x)) found) :
      Drains next done (x :: queue) found

/-- The distance of a node from the root of a walk. -/
noncomputable def depth (next : α → List α) (root : α) : α → Nat :=
  distance (fun x y => y ∈ next x) root

/-- What is discovered is in the order of depth, and the queue holds two depths at most. -/
structure Levelled (next : α → List α) (root : α) (done queue : List α) : Prop where
  sorted : (done ++ queue).Pairwise fun x y => depth next root x ≤ depth next root y
  narrow : ∀ x ∈ queue, ∀ y ∈ queue, depth next root y ≤ depth next root x + 1

namespace Levelled

lemma begin (next : α → List α) (root : α) : Levelled next root [] [root] := by
  constructor <;> simp

lemma head_le (h : Levelled next root done (x :: queue)) (hy : y ∈ x :: queue) :
    depth next root x ≤ depth next root y := by
  obtain ⟨-, hqueue, -⟩ := List.pairwise_append.mp h.sorted
  rcases List.mem_cons.mp hy with rfl | hy
  · exact le_rfl
  · exact (List.pairwise_cons.mp hqueue).1 y hy

lemma le_head_add_one (h : Levelled next root done (x :: queue)) (hy : y ∈ done ++ x :: queue) :
    depth next root y ≤ depth next root x + 1 := by
  obtain ⟨-, -, hdone⟩ := List.pairwise_append.mp h.sorted
  rcases List.mem_append.mp hy with hy | hy
  · exact (hdone y hy x List.mem_cons_self).trans (Nat.le_succ _)
  · exact h.narrow x List.mem_cons_self y hy

variable (hw : Walking next nodes root done (x :: queue)) (h : Levelled next root done (x :: queue))

include hw h

lemma mem_done (hy : LeadsIn (fun x y => y ∈ next x) root k y) (hk : k < depth next root x) : y ∈ done := by
  induction hy with
  | refl =>
    have hzero : depth next root root ≤ 0 := distance_le .refl
    apply (List.mem_append.mp hw.root_mem).resolve_right
    intro hroot
    have hle := h.head_le hroot
    omega
  | @tail k y z before last ih =>
    have hdone := ih (by omega)
    have hdepth : depth next root z ≤ k + 1 := distance_le (before.tail last)
    apply (List.mem_append.mp (hw.closed y hdone z last)).resolve_right
    intro hz
    have hle := h.head_le hz
    omega

lemma depth_lt_of_new (hy : LeadsIn (fun x y => y ∈ next x) root k y) (hnew : y ∉ done ++ x :: queue) :
    depth next root x < k := by
  cases hy with
  | refl => exact absurd hw.root_mem hnew
  | @tail k z _ before last =>
    by_contra hle
    have hdone := h.mem_done hw before (by omega)
    exact hnew (hw.closed z hdone y last)

lemma depth_of_new (hy : y ∈ next x) (hnew : y ∉ done ++ x :: queue) :
    depth next root y = depth next root x + 1 := by
  have hway := (leadsIn_distance (hw.sound x (by simp))).tail hy
  have hle : depth next root y ≤ depth next root x + 1 := distance_le hway
  have hlt : depth next root x < depth next root y :=
    h.depth_lt_of_new hw (leadsIn_distance hway.reflTransGen) hnew
  omega

variable [BEq α] [LawfulBEq α]

lemma step : Levelled next root (done ++ [x]) (queue ++ unseen (done ++ x :: queue) (next x)) := by
  have hnew : ∀ y ∈ unseen (done ++ x :: queue) (next x), depth next root y = depth next root x + 1 := by
    intro y hy
    obtain ⟨hnext, hunseen⟩ := mem_unseen.mp hy
    exact h.depth_of_new hw hnext hunseen
  constructor
  · have hlist : done ++ [x] ++ (queue ++ unseen (done ++ x :: queue) (next x)) =
        (done ++ x :: queue) ++ unseen (done ++ x :: queue) (next x) := by simp
    rw [hlist, List.pairwise_append]
    refine ⟨h.sorted, ?_, ?_⟩
    · apply List.pairwise_of_forall_mem_list
      intro y hy z hz
      rw [hnew y hy, hnew z hz]
    · intro y hy z hz
      rw [hnew z hz]
      exact h.le_head_add_one hy
  · have hbounds : ∀ y ∈ queue ++ unseen (done ++ x :: queue) (next x),
        depth next root x ≤ depth next root y ∧ depth next root y ≤ depth next root x + 1 := by
      intro y hy
      rcases List.mem_append.mp hy with hy | hy
      · have hqueue := List.mem_cons_of_mem x hy
        exact ⟨h.head_le hqueue, h.le_head_add_one (List.mem_append_right _ hqueue)⟩
      · have heq := hnew y hy
        omega
    intro y hy z hz
    have hlow := (hbounds y hy).1
    have hhigh := (hbounds z hz).2
    omega

end Levelled

namespace Walking

variable [BEq α] [LawfulBEq α] (hnext : ∀ x ∈ nodes, ∀ y ∈ next x, y ∈ nodes)

include hnext

/-- A walk discovers nodes in the order of their depth. -/
lemma walk_sorted {steps : Nat} (hw : Walking next nodes root done queue) (h : Levelled next root done queue) :
    (walk next steps done queue).Pairwise fun x y => depth next root x ≤ depth next root y := by
  induction steps generalizing done queue with
  | zero => exact h.sorted
  | succ steps ih =>
    cases queue with
    | nil =>
      rw [walk]
      simpa using h.sorted
    | cons x queue =>
      rw [walk]
      exact ih (hw.step hnext) (h.step hw)

lemma drains {steps : Nat} (hw : Walking next nodes root done queue) (hsteps : nodes.length ≤ steps + done.length) :
    Drains next done queue (walk next steps done queue) := by
  induction steps generalizing done queue with
  | zero =>
    have hqueue := hw.queue_eq_nil (by omega)
    subst hqueue
    rw [walk, List.append_nil]
    exact .done done
  | succ steps ih =>
    cases queue with
    | nil => exact .done done
    | cons x queue =>
      rw [walk]
      apply Drains.visit
      apply ih (hw.step hnext)
      simp only [List.length_append, List.length_singleton]
      omega

end Walking

end BreadthFirst

/-! ### Nonterminals in the order of their discovery -/

namespace Grammar

open BreadthFirst

variable {g : Grammar} {k : Nat} {m n : Symbol}

/-- The second symbol occurs on the right side of a rule for the first. -/
def OccursFor (g : Grammar) (m n : Symbol) : Prop :=
  ∃ r ∈ g.rules, r.left = m ∧ n ∈ r.right

lemma unreachable_eq_filter (g : Grammar) : g.unreachable = g.nonterminals.filter (· ∉ g.reachable) := by
  apply List.filter_congr
  simp

namespace Consistent

variable (hg : g.Consistent)

include hg

lemma leadsIn_successors_iff (hn : n ∈ g.nonterminals) :
    LeadsIn (fun m n => n ∈ g.successors m) m k n ↔ LeadsIn g.OccursFor m k n := by
  constructor
  · intro h
    clear hn
    induction h with
    | refl => exact .refl
    | tail _ last ih => exact ih.tail (hg.mem_successors.mp last).2
  · intro h
    induction h with
    | refl => exact .refl
    | tail _ last ih =>
      obtain ⟨r, hr, rfl, hmem⟩ := last
      exact (ih (hg.left_mem r hr)).tail (hg.mem_successors.mpr ⟨hn, r, hr, rfl, hmem⟩)

lemma mem_nonterminals_of_leadsTo (h : LeadsTo g.successors g.start n) : n ∈ g.nonterminals := by
  rcases h.cases_tail with rfl | ⟨m, -, hn⟩
  · exact hg.start_mem
  · exact (hg.mem_successors.mp hn).1

lemma mem_reachable_iff_occurs :
    n ∈ g.reachable ↔ n ∈ g.nonterminals ∧ Relation.ReflTransGen g.OccursFor g.start n := by
  rw [hg.mem_reachable]
  constructor
  · intro h
    have hn := hg.mem_nonterminals_of_leadsTo h
    obtain ⟨k, hk⟩ := exists_leadsIn h
    exact ⟨hn, ((hg.leadsIn_successors_iff hn).mp hk).reflTransGen⟩
  · rintro ⟨hn, h⟩
    obtain ⟨k, hk⟩ := exists_leadsIn h
    exact ((hg.leadsIn_successors_iff hn).mpr hk).reflTransGen

lemma depth_successors (hn : n ∈ g.nonterminals) :
    depth g.successors m n = distance g.OccursFor m n := by
  unfold depth distance
  simp only [hg.leadsIn_successors_iff hn]

lemma perm_reachable_unreachable (hnodup : g.reachable.Nodup) :
    (g.reachable ++ g.unreachable).Perm g.nonterminals := by
  rw [unreachable_eq_filter]
  have hdisjoint : g.reachable.Disjoint (g.nonterminals.filter (· ∉ g.reachable)) := by
    intro n hn hlost
    rw [List.mem_filter, decide_eq_true_iff] at hlost
    exact hlost.2 hn
  apply (List.perm_ext_iff_of_nodup (hnodup.append (hg.nonterminals_nodup.filter _) hdisjoint)
    hg.nonterminals_nodup).mpr
  intro n
  rw [List.mem_append, List.mem_filter, decide_eq_true_iff]
  have hreach := hg.mem_reachable_iff_occurs (n := n)
  tauto

end Consistent

/-- The search for the nonterminals that can be reached ends. It lists exactly those that the start symbol leads to
by occurring on right sides, each once, the start symbol first and none before one that is nearer to it. The others
are left over in the order of the nonterminals. -/
theorem reachable_nonterminals_by_distance (hg : Attainable g) :
    Drains g.successors [] [g.start] g.reachable ∧
    g.reachable.Nodup ∧ g.reachable.head? = some g.start ∧
    (∀ n, n ∈ g.reachable ↔ n ∈ g.nonterminals ∧ Relation.ReflTransGen g.OccursFor g.start n) ∧
    (g.reachable.map (distance g.OccursFor g.start)).Pairwise (· ≤ ·) ∧
    g.unreachable = g.nonterminals.filter (· ∉ g.reachable) ∧
    (g.reachable ++ g.unreachable).Perm g.nonterminals := by
  have hc := hg.consistent
  have hnext : ∀ m ∈ g.nonterminals, ∀ n ∈ g.successors m, n ∈ g.nonterminals :=
    fun m _ n hn => (hc.mem_successors.mp hn).1
  have hbegin : Walking g.successors g.nonterminals g.start [] [g.start] := .begin hc.start_mem
  have hnodup : g.reachable.Nodup := walk_nodup hc.start_mem hnext
  refine ⟨hbegin.drains hnext (by simp), hnodup, ?_, fun n => hc.mem_reachable_iff_occurs, ?_, g.unreachable_eq_filter,
    hc.perm_reachable_unreachable hnodup⟩
  · obtain ⟨later, hlater⟩ := append_isPrefix_walk g.successors g.nonterminals.length [] [g.start]
    rw [reachable, ← hlater]
    rfl
  · rw [List.pairwise_map]
    apply (hbegin.walk_sorted hnext (.begin _ _)).imp_of_mem
    intro m n hm hn hle
    have hm' := (hc.mem_reachable_iff_occurs.mp hm).1
    have hn' := (hc.mem_reachable_iff_occurs.mp hn).1
    rwa [hc.depth_successors hm', hc.depth_successors hn'] at hle

/-- The symbols `A` and `B` are next to `S`, and `C` leads back to it. Nothing leads to `U`. -/
def loopWithOutsider : List Rule :=
  [⟨"S", ["A", "a", "B"]⟩, ⟨"A", ["C"]⟩, ⟨"C", ["S", "B"]⟩, ⟨"B", []⟩, ⟨"U", ["S"]⟩]

theorem reachable_of_loopWithOutsider :
    ∃ g, ofParts "S" ["a"] ["C", "U", "B", "A"] loopWithOutsider .standard = .ok g ∧
      g.reachable.head? = some "S" ∧ "C" ∈ g.reachable ∧ "a" ∉ g.reachable ∧ "U" ∉ g.reachable ∧
      (g.reachable ++ g.unreachable).Perm ["S", "C", "U", "B", "A"] ∧
      (g.reachable.map (distance g.OccursFor "S")).Pairwise (· ≤ ·) := by
  obtain ⟨g, hg, hcontents⟩ := ofParts_eq_ok "S" ["a"] ["C", "U", "B", "A"] loopWithOutsider .standard
    (by decide) (by decide) (by decide) (by decide) (by decide)
  obtain ⟨hstart, -, hnonterminals, hrules, -⟩ := Contents.mk.inj hcontents
  obtain ⟨-, -, hhead, hmem, hsorted, -, hperm⟩ := reachable_nonterminals_by_distance (.ofParts hg)
  rw [hstart] at hhead hmem hsorted
  rw [hnonterminals] at hmem hperm
  have hoccurs : ∀ r ∈ loopWithOutsider, ∀ s ∈ r.right, g.OccursFor r.left s := by
    intro r hr s hs
    exact ⟨r, hrules ▸ hr, rfl, hs⟩
  refine ⟨g, hg, hhead, (hmem "C").mpr ⟨by decide, ?_⟩, ?_, ?_, hperm, hsorted⟩
  · have hfirst : g.OccursFor "S" "A" := hoccurs ⟨"S", ["A", "a", "B"]⟩ (by decide) "A" (by decide)
    have hsecond : g.OccursFor "A" "C" := hoccurs ⟨"A", ["C"]⟩ (by decide) "C" (by decide)
    exact (Relation.ReflTransGen.single hfirst).tail hsecond
  · intro ha
    exact absurd ((hmem "a").mp ha).1 (by decide)
  · intro hU
    rcases ((hmem "U").mp hU).2.cases_tail with heq | ⟨m, -, r, hr, -, hright⟩
    · exact absurd heq (by decide)
    · rw [hrules] at hr
      have hunused : ∀ r ∈ loopWithOutsider, "U" ∉ r.right := by decide
      exact hunused r hr hright

end Grammar

end ContextFree
