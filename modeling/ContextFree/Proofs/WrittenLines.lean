import ContextFree.Proofs.Copies

/-!
# Lines as they are written

A log beside the records of a writer keeps its calls: the grammar at that moment, the line, and the error that the
writer answered with, if any. Whatever the writer does to the grammar in between, the log follows the rules that were
there at the beginning, and a rule whose symbols are not known any more is itself gone. A writer that leaves the grammar
alone is given the lines of its rules, one after the other.
-/

namespace ContextFree

variable {ω : Type} {write : Writer ω} {g : Grammar} {r : Rule} {records : ω}

namespace Grammar

/-- A symbol of a right side as it is listed. -/
def listedSymbol (g : Grammar) (s : Symbol) : String :=
  if s ∈ g.terminals then " '" ++ s ++ "'" else " " ++ s

/-- The line of a rule. -/
def lineOf (g : Grammar) (r : Rule) : String :=
  r.left ++ " ->" ++ (if r.right = [] then " epsilon" else String.join (r.right.map g.listedSymbol)) ++ "\n"

def startLine (g : Grammar) : String :=
  "start: " ++ g.start ++ "\n"

lemma Consistent.listedSymbol?_eq (hg : g.Consistent) (s : Symbol) :
    g.listedSymbol? s = if s ∈ g.symbols then some (g.listedSymbol s) else none := by
  unfold listedSymbol? listedSymbol
  simp only [hg.isTerminal_iff, hg.isNonterminal_iff, symbols, List.mem_append]
  split_ifs <;> simp_all

lemma Consistent.listedSequence_cases (hg : g.Consistent) (u : List Symbol) :
    g.listedSequence u = .ok (String.join (u.map g.listedSymbol)) ∨
      ∃ s ∈ u, s ∉ g.symbols ∧ g.listedSequence u = .error s := by
  induction u with
  | nil => exact .inl rfl
  | cons s u ih =>
    rw [listedSequence, hg.listedSymbol?_eq]
    by_cases hs : s ∈ g.symbols
    · simp only [hs, if_true]
      rcases ih with h | ⟨x, hx, hunknown, h⟩
      · left
        rw [h, List.map_cons, String.join_cons]
        rfl
      · right
        exact ⟨x, List.mem_cons_of_mem _ hx, hunknown, by rw [h]; rfl⟩
    · simp only [hs, if_false]
      exact .inr ⟨s, List.mem_cons_self, hs, rfl⟩

lemma Consistent.ruleLine_cases (hg : g.Consistent) (r : Rule) :
    g.ruleLine r = .ok (g.lineOf r) ∨ ∃ s ∈ r.right, s ∉ g.symbols ∧ g.ruleLine r = .error (.unlisted r s) := by
  unfold ruleLine lineOf
  match hright : r.right with
  | [] =>
    left
    rw [if_pos rfl, String.append_assoc, String.append_assoc]
    rfl
  | s :: rest =>
    rcases hg.listedSequence_cases (s :: rest) with h | ⟨x, hx, hunknown, h⟩
    · left
      simp only [h]
      rfl
    · right
      exact ⟨x, hx, hunknown, by simp only [h]⟩

lemma Consistent.ruleLine_eq (hg : g.Consistent) (hr : r ∈ g.rules) : g.ruleLine r = .ok (g.lineOf r) := by
  rcases hg.ruleLine_cases r with h | ⟨s, hs, hunknown, -⟩
  · exact h
  · exact absurd (hg.right_mem r hr s hs) hunknown

/-- Writes one rule. -/
def writeRule (write : Writer ω) (r : Rule) : Observed ω Unit := do
  write (← Observed.ofEdit (Edit.query (ruleLine · r)))

lemma writeRule_of_ok {line : String} (h : g.ruleLine r = .ok line) :
    writeRule write r (g, records) = write line (g, records) := by
  have hquery : (Observed.ofEdit (Edit.query (ruleLine · r)) : Observed ω String) (g, records) =
      .ok line (g, records) := by
    simp only [Observed.ofEdit, Edit.query, h]
  exact bind_of_ok hquery

lemma writeRule_of_error {e : Error} (h : g.ruleLine r = .error e) :
    writeRule write r (g, records) = .error e (g, records) := by
  have hquery : (Observed.ofEdit (Edit.query (ruleLine · r)) : Observed ω String) (g, records) =
      .error e (g, records) := by
    simp only [Observed.ofEdit, Edit.query, h]
  exact bind_of_error hquery

end Grammar

/-! ### The log of a writer -/

/-- A call of a writer: the grammar at that moment, the line and the error of the answer. -/
structure Writing where
  grammar : Grammar
  line : String
  error : Option Error

/-- The writer, with a log of its calls beside its records. -/
def Writer.logged (write : Writer ω) : Writer (ω × List Writing) := fun line (g, records, log) =>
  match write line (g, records) with
  | .ok _ (g', records') => .ok () (g', records', log ++ [⟨g, line, none⟩])
  | .error e (g', records') => .error e (g', records', log ++ [⟨g, line, some e⟩])

/-- The outcome of a run, with a log of writings beside the records of the writer. -/
def withWritings (log : List Writing) : EStateM.Result Error (Grammar × ω) Unit →
    EStateM.Result Error (Grammar × ω × List Writing) Unit
  | .ok _ (g, records) => .ok () (g, records, log)
  | .error e (g, records) => .error e (g, records, log)

/-- The lines that a writer has taken. -/
def written (log : List Writing) : List String :=
  (log.filter (·.error.isNone)).map (·.line)

/-- The log and the outcome of writing rules one after the other. -/
inductive Account : List Rule → List Writing → EStateM.Result Error (Grammar × ω) Unit → Prop where
  | finished (s : Grammar × ω) : Account [] [] (.ok () s)
  | unlisted {r : Rule} {rest : List Rule} {s : Grammar × ω} (x : Symbol) (gone : r ∉ s.1.rules) :
      Account (r :: rest) [] (.error (.unlisted r x) s)
  | refused {r : Rule} {rest : List Rule} (h : Grammar) (e : Error) (s : Grammar × ω) :
      Account (r :: rest) [⟨h, h.lineOf r, some e⟩] (.error e s)
  | taken {r : Rule} {rest : List Rule} {log : List Writing} {outcome : EStateM.Result Error (Grammar × ω) Unit}
      (h : Grammar) (later : Account rest log outcome) : Account (r :: rest) (⟨h, h.lineOf r, none⟩ :: log) outcome

namespace Account

variable {rules : List Rule} {log : List Writing} {outcome : EStateM.Result Error (Grammar × ω) Unit} {w : Writing}
  {e : Error} {s : Grammar × ω} {k : Nat}

lemma length_le (h : Account rules log outcome) : log.length ≤ rules.length := by
  induction h with
  | finished => exact le_rfl
  | unlisted => exact Nat.zero_le _
  | refused => simp
  | taken _ _ ih => simpa using ih

lemma line_eq (h : Account rules log outcome) (hw : log[k]? = some w) :
    ∃ r, rules[k]? = some r ∧ w.line = w.grammar.lineOf r := by
  induction h generalizing k with
  | finished => simp at hw
  | unlisted => simp at hw
  | @refused r rest =>
    cases k with
    | zero =>
      cases hw
      exact ⟨r, rfl, rfl⟩
    | succ k => simp at hw
  | @taken r rest _ _ _ _ ih =>
    cases k with
    | zero =>
      cases hw
      exact ⟨r, rfl, rfl⟩
    | succ k => exact ih hw

lemma stops (h : Account rules log outcome) (hw : log[k]? = some w) (he : w.error = some e) :
    k + 1 = log.length ∧ ∃ s, outcome = .error e s := by
  induction h generalizing k with
  | finished => simp at hw
  | unlisted => simp at hw
  | refused _ _ s =>
    cases k with
    | zero =>
      cases hw
      cases he
      exact ⟨rfl, s, rfl⟩
    | succ k => simp at hw
  | taken _ _ ih =>
    cases k with
    | zero =>
      cases hw
      cases he
    | succ k =>
      obtain ⟨hk, hs⟩ := ih hw
      exact ⟨by rw [List.length_cons, hk], hs⟩

lemma length_eq (h : Account rules log outcome) (hok : outcome = .ok () s) : log.length = rules.length := by
  induction h with
  | finished => rfl
  | unlisted => cases hok
  | refused => cases hok
  | taken _ _ ih => simpa using ih hok

lemma error_cases (h : Account rules log outcome) (herror : outcome = .error e s) :
    (∃ w, log.getLast? = some w ∧ w.error = some e) ∨
      ∃ r x, rules[log.length]? = some r ∧ e = .unlisted r x ∧ r ∉ s.1.rules := by
  induction h with
  | finished => cases herror
  | @unlisted r _ _ x gone =>
    cases herror
    exact .inr ⟨r, x, rfl, rfl, gone⟩
  | refused =>
    cases herror
    exact .inl ⟨_, rfl, rfl⟩
  | taken _ _ ih =>
    rcases ih herror with ⟨w, hw, he⟩ | ⟨r, x, hr, he, hgone⟩
    · refine .inl ⟨w, ?_, he⟩
      rw [List.getLast?_cons, hw]
      rfl
    · exact .inr ⟨r, x, hr, he, hgone⟩

end Account

section Logged

variable {line : String} {g' : Grammar} {records' : ω}

lemma Writer.logged_of_ok (past : List Writing) (h : write line (g, records) = .ok () (g', records')) :
    write.logged line (g, records, past) = .ok () (g', records', past ++ [⟨g, line, none⟩]) := by
  simp only [logged, h]

lemma Writer.logged_of_error {e : Error} (past : List Writing)
    (h : write line (g, records) = .error e (g', records')) :
    write.logged line (g, records, past) = .error e (g', records', past ++ [⟨g, line, some e⟩]) := by
  simp only [logged, h]

end Logged

/-- Writing rules adds to the log and does not depend on it, and the log gives an account of it. -/
lemma exists_account (hwrite : write.Editing) (hg : g.Consistent) (rules : List Rule) (records : ω)
    (past : List Writing) : ∃ log,
      rules.forM (Grammar.writeRule write.logged) (g, records, past) =
        withWritings (past ++ log) (rules.forM (Grammar.writeRule write) (g, records)) ∧
      Account rules log (rules.forM (Grammar.writeRule write) (g, records)) := by
  induction rules generalizing g records past with
  | nil => exact ⟨[], by rw [List.append_nil]; rfl, .finished _⟩
  | cons r rest ih =>
    rcases hg.ruleLine_cases r with hline | ⟨x, hx, hunknown, herror⟩
    · cases hcall : write (g.lineOf r) (g, records) with
      | ok _ s =>
        obtain ⟨g₁, records₁⟩ := s
        have hplain := (Grammar.writeRule_of_ok hline).trans hcall
        have hlogged := (Grammar.writeRule_of_ok hline).trans (Writer.logged_of_ok past hcall)
        have hbecomes := hwrite (g.lineOf r) g records
        rw [stateAfter_of_ok hcall] at hbecomes
        obtain ⟨log, hrun, haccount⟩ := ih (hg.becomes hbecomes) records₁ (past ++ [⟨g, g.lineOf r, none⟩])
        refine ⟨⟨g, g.lineOf r, none⟩ :: log, ?_, ?_⟩
        · rw [forM_cons_of_ok rest hlogged, forM_cons_of_ok rest hplain, hrun, List.append_assoc]
          rfl
        · rw [forM_cons_of_ok rest hplain]
          exact .taken g haccount
      | error e s =>
        have hplain := (Grammar.writeRule_of_ok hline).trans hcall
        have hlogged := (Grammar.writeRule_of_ok hline).trans (Writer.logged_of_error past hcall)
        refine ⟨[⟨g, g.lineOf r, some e⟩], ?_, ?_⟩
        · rw [forM_cons_of_error rest hlogged, forM_cons_of_error rest hplain]
          rfl
        · rw [forM_cons_of_error rest hplain]
          exact .refused g e s
    · have hplain : Grammar.writeRule write r (g, records) = _ := Grammar.writeRule_of_error herror
      have hlogged : Grammar.writeRule write.logged r (g, records, past) = _ := Grammar.writeRule_of_error herror
      refine ⟨[], ?_, ?_⟩
      · rw [forM_cons_of_error rest hlogged, forM_cons_of_error rest hplain, List.append_nil]
        rfl
      · rw [forM_cons_of_error rest hplain]
        exact .unlisted x fun hr => hunknown (hg.right_mem r hr x hx)

/-! ### Writers that leave the grammar alone -/

namespace Writer

/-- The writer leaves the grammar alone, though it may fail. -/
def Idle (write : Writer ω) : Prop :=
  ∀ line g records, (stateAfter (write line) (g, records)).1 = g

/-- The writer takes so many more lines, whatever they are, and refuses the next one. -/
def FailsFrom (write : Writer ω) : Nat → Grammar × ω → Prop
  | 0, s => ∀ line, ∃ e s', write line s = .error e s'
  | n + 1, s => ∀ line, ∃ s', write line s = .ok () s' ∧ write.FailsFrom n s'

lemma Idle.eq_of_ok {line : String} {s : Grammar × ω} (h : write.Idle) (hok : write line (g, records) = .ok () s) :
    s.1 = g := by
  have hsame := h line g records
  rwa [stateAfter_of_ok hok] at hsame

lemma Idle.eq_of_error {line : String} {s : Grammar × ω} {e : Error} (h : write.Idle)
    (herror : write line (g, records) = .error e s) : s.1 = g := by
  have hsame := h line g records
  rwa [stateAfter_of_error herror] at hsame

lemma Idle.logged (h : write.Idle) : write.logged.Idle := by
  rintro line g ⟨records, log⟩
  cases hcall : write line (g, records) with
  | ok _ s =>
    rw [stateAfter_of_ok (logged_of_ok log hcall)]
    exact h.eq_of_ok hcall
  | error e s =>
    rw [stateAfter_of_error (logged_of_error log hcall)]
    exact h.eq_of_error hcall

lemma Idle.forM_writeRule (h : write.Idle) (hg : g.Consistent) {rules : List Rule} (hrules : ∀ r ∈ rules, r ∈ g.rules)
    (records : ω) :
    rules.forM (Grammar.writeRule write) (g, records) = (rules.map g.lineOf).forM write (g, records) := by
  induction rules generalizing records with
  | nil => rfl
  | cons r rest ih =>
    obtain ⟨hr, hrest⟩ := List.forall_mem_cons.mp hrules
    have hrule : Grammar.writeRule write r (g, records) = _ := Grammar.writeRule_of_ok (hg.ruleLine_eq hr)
    rw [List.map_cons]
    cases hcall : write (g.lineOf r) (g, records) with
    | ok _ s =>
      obtain ⟨g₁, records₁⟩ := s
      obtain rfl : g₁ = g := h.eq_of_ok hcall
      rw [forM_cons_of_ok rest (hrule.trans hcall), forM_cons_of_ok _ hcall]
      exact ih hrest records₁
    | error e s => rw [forM_cons_of_error rest (hrule.trans hcall), forM_cons_of_error _ hcall]

lemma Idle.writeRules_eq (h : write.Idle) (hg : g.Consistent) (records : ω) :
    Grammar.writeRules write (g, records) = (g.rules.map g.lineOf).forM write (g, records) :=
  h.forM_writeRule hg (fun _ hr => hr) records

lemma Idle.writeGrammar_eq (h : write.Idle) (hg : g.Consistent) (records : ω) :
    Grammar.writeGrammar write (g, records) =
      (g.startLine :: g.rules.map g.lineOf).forM write (g, records) := by
  change (write g.startLine >>= fun _ => Grammar.writeRules write) (g, records) = _
  cases hcall : write g.startLine (g, records) with
  | ok _ s =>
    obtain ⟨g₁, records₁⟩ := s
    obtain rfl : g₁ = g := h.eq_of_ok hcall
    rw [bind_of_ok hcall, forM_cons_of_ok _ hcall]
    exact h.writeRules_eq hg records₁
  | error e s => rw [bind_of_error hcall, forM_cons_of_error _ hcall]

lemma Idle.exists_of_error (h : write.Idle) {lines : List String} {records : ω} {e : Error} {s : Grammar × ω}
    (herror : lines.forM write (g, records) = .error e s) :
    ∃ line ∈ lines, ∃ records', write line (g, records') = .error e s := by
  induction lines generalizing records with
  | nil => cases herror
  | cons line rest ih =>
    cases hcall : write line (g, records) with
    | ok _ s₁ =>
      obtain ⟨g₁, records₁⟩ := s₁
      obtain rfl : g₁ = g := h.eq_of_ok hcall
      rw [forM_cons_of_ok rest hcall] at herror
      obtain ⟨later, hmem, hlater⟩ := ih herror
      exact ⟨later, List.mem_cons_of_mem _ hmem, hlater⟩
    | error e₁ s₁ =>
      rw [forM_cons_of_error rest hcall] at herror
      cases herror
      exact ⟨line, List.mem_cons_self, records, hcall⟩

lemma FailsFrom.exists_written {n : Nat} {s : Grammar × ω} (h : write.FailsFrom n s) (lines : List String)
    (past : List Writing) : ∃ log,
      lines.forM write.logged (s.1, s.2, past) = withWritings (past ++ log) (lines.forM write s) ∧
      written log = lines.take n ∧ ((∃ e s', lines.forM write s = .error e s') ↔ n < lines.length) := by
  induction lines generalizing n s past with
  | nil => exact ⟨[], by rw [List.append_nil]; rfl, by simp [written], by simp [pure, EStateM.pure]⟩
  | cons line rest ih =>
    cases n with
    | zero =>
      obtain ⟨e, s₁, hcall⟩ := h line
      have hlogged : write.logged line (s.1, s.2, past) = _ := logged_of_error past hcall
      refine ⟨[⟨s.1, line, some e⟩], ?_, rfl, ?_⟩
      · rw [forM_cons_of_error rest hlogged, forM_cons_of_error rest hcall]
        rfl
      · rw [forM_cons_of_error rest hcall]
        simp
    | succ n =>
      obtain ⟨s₁, hcall, hlater⟩ := h line
      have hlogged : write.logged line (s.1, s.2, past) = _ := logged_of_ok past hcall
      obtain ⟨log, hrun, hwritten, hfails⟩ := ih hlater (past ++ [⟨s.1, line, none⟩])
      refine ⟨⟨s.1, line, none⟩ :: log, ?_, ?_, ?_⟩
      · rw [forM_cons_of_ok rest hlogged, forM_cons_of_ok rest hcall, hrun, List.append_assoc]
        rfl
      · rw [List.take_succ_cons, ← hwritten]
        rfl
      · rw [forM_cons_of_ok rest hcall, hfails, List.length_cons]
        omega

end Writer

lemma Grammar.Consistent.listing_eq (hg : g.Consistent) :
    g.listing = .ok (String.join (g.rules.map g.lineOf)) := by
  have hidle : Writer.Idle fun line : String => Observed.record (· ++ line) := fun _ _ _ => rfl
  have htext : ∀ (lines : List String) (text : String),
      lines.forM (fun line => Observed.record (· ++ line)) (g, text) = .ok () (g, text ++ String.join lines) := by
    intro lines
    induction lines with
    | nil =>
      intro text
      rw [String.join_nil, String.append_empty]
      rfl
    | cons line rest ih =>
      intro text
      rw [String.join_cons, ← String.append_assoc]
      exact ih (text ++ line)
  unfold Grammar.listing
  rw [hidle.writeRules_eq hg, htext, String.empty_append]

/-- Whatever a writer does to the grammar, the lines that it is given are those of the rules at the beginning, one for
each and in order, until it refuses one. Other than by a refusal, writing ends early only at a rule that is not there
any more. A writer that leaves the grammar alone is given all lines, or as many as it takes and one more, and so a text
of the rules can always be had; with the start symbol there is one more line at the beginning. -/
theorem listings_follow_the_rules (hg : Attainable g) :
    (∀ (ω : Type) (write : Writer ω) (records : ω), write.Editing → ∃ log : List Writing,
      Grammar.writeRules write.logged (g, records, []) = withWritings log (Grammar.writeRules write (g, records)) ∧
      log.length ≤ g.rules.length ∧
      (∀ (k : Nat) (w : Writing), log[k]? = some w → ∃ r, g.rules[k]? = some r ∧ w.line = w.grammar.lineOf r) ∧
      (∀ (k : Nat) (w : Writing) (e : Error), log[k]? = some w → w.error = some e →
        k + 1 = log.length ∧ ∃ s, Grammar.writeRules write (g, records) = .error e s) ∧
      (∀ s, Grammar.writeRules write (g, records) = .ok () s → log.length = g.rules.length) ∧
      ∀ e s, Grammar.writeRules write (g, records) = .error e s →
        (∃ w, log.getLast? = some w ∧ w.error = some e) ∨
          ∃ r x, g.rules[log.length]? = some r ∧ e = .unlisted r x ∧ r ∉ s.1.rules) ∧
    (∀ (ω : Type) (write : Writer ω) (records : ω), write.Idle →
      Grammar.writeRules write (g, records) = (g.rules.map g.lineOf).forM write (g, records) ∧
      Grammar.writeGrammar write (g, records) =
        (g.startLine :: g.rules.map g.lineOf).forM write (g, records) ∧
      (∀ e s, Grammar.writeRules write (g, records) = .error e s →
        ∃ line ∈ g.rules.map g.lineOf, ∃ records', write line (g, records') = .error e s) ∧
      ∀ n, write.FailsFrom n (g, records) → ∃ log : List Writing,
        Grammar.writeRules write.logged (g, records, []) = withWritings log (Grammar.writeRules write (g, records)) ∧
        written log = (g.rules.map g.lineOf).take n ∧
        ((∃ e s, Grammar.writeRules write (g, records) = .error e s) ↔ n < g.rules.length)) ∧
    g.listing = .ok (String.join (g.rules.map g.lineOf)) := by
  have hconsistent := hg.consistent
  refine ⟨?_, ?_, hconsistent.listing_eq⟩
  · intro ω write records hwrite
    obtain ⟨log, hrun, haccount⟩ := exists_account hwrite hconsistent g.rules records []
    exact ⟨log, hrun, haccount.length_le, fun _ _ => haccount.line_eq, fun _ _ _ => haccount.stops,
      fun _ => haccount.length_eq, fun _ _ => haccount.error_cases⟩
  · intro ω write records hidle
    have hrules := hidle.writeRules_eq hconsistent records
    refine ⟨hrules, hidle.writeGrammar_eq hconsistent records, ?_, ?_⟩
    · intro e s herror
      rw [hrules] at herror
      exact hidle.exists_of_error herror
    · intro n hfails
      obtain ⟨log, hrun, hwritten, hiff⟩ := hfails.exists_written (g.rules.map g.lineOf) []
      rw [hrules, hidle.logged.writeRules_eq hconsistent]
      rw [List.length_map] at hiff
      exact ⟨log, hrun, hwritten, hiff⟩

/-- The writer that runs operations after every line, until one is refused. -/
def Writer.ofOperations (ops : List Operation) : Writer ω :=
  fun _ => Observed.ofEdit (ops.forM fun op => discard op.edit)

lemma Writer.editing_ofOperations (ops : List Operation) : (ofOperations (ω := ω) ops).Editing := by
  intro line g records
  have hops : ∀ g : Grammar, Becomes g (stateAfter (ops.forM fun op => discard op.edit) g) := by
    induction ops with
    | nil => exact .refl
    | cons op ops ih =>
      intro g
      have hop : Becomes g (stateAfter op.edit g) := .operation op (.refl g)
      cases h : op.edit g with
      | ok a g₁ =>
        have hdiscard : discard op.edit g = .ok () g₁ := by
          change EStateM.map _ op.edit g = _
          simp only [EStateM.map, h, Function.const]
        rw [stateAfter_of_ok h] at hop
        rw [stateAfter, forM_cons_of_ok ops hdiscard]
        exact hop.trans (ih g₁)
      | error e g₁ =>
        have hdiscard : discard op.edit g = .error e g₁ := by
          change EStateM.map _ op.edit g = _
          simp only [EStateM.map, h]
        rw [stateAfter_of_error h] at hop
        rwa [stateAfter, forM_cons_of_error ops hdiscard]
  have hstate : (stateAfter (ofOperations ops line) (g, records)).1 =
      stateAfter (ops.forM fun op => discard op.edit) g := by
    change (stateAfter (Observed.ofEdit _) (g, records)).1 = _
    cases h : ops.forM (fun op => discard op.edit) g <;> simp only [stateAfter, Observed.ofEdit, h]
  rw [hstate]
  exact hops g

/-- The writer that takes so many lines more, as its records say. -/
def Writer.countdown : Writer Nat := fun _ (g, left) =>
  match left with
  | 0 => .error (.writer "write failed") (g, 0)
  | left + 1 => .ok () (g, left)

lemma Writer.countdown_idle : countdown.Idle := by
  intro line g left
  cases left <;> rfl

lemma Writer.countdown_failsFrom (g : Grammar) (n : Nat) : countdown.FailsFrom n (g, n) := by
  induction n with
  | zero => exact fun _ => ⟨_, _, rfl⟩
  | succ n ih => exact fun _ => ⟨_, rfl, ih⟩

/-- The rules of one word, and operations that take the second one back together with its terminal. -/
def twoSteps : List Rule :=
  [⟨"S", ["A", "a"]⟩, ⟨"A", ["b"]⟩]

def takeBack : List Operation :=
  [.eraseRule ⟨"A", ["b"]⟩, .eraseTerminals ["b"]]

lemma Grammar.Consistent.succeeds_takeBack (hg : g.Consistent) (hterminals : g.terminals = ["a", "b"])
    (hnonterminals : g.nonterminals = ["S", "A"]) (hrules : g.rules = twoSteps) :
    Succeeds (takeBack.forM fun op => discard op.edit) g fun _ g' => g'.Consistent ∧ "b" ∉ g'.symbols := by
  have hrule : Succeeds (discard (Operation.eraseRule ⟨"A", ["b"]⟩).edit) g fun _ g₁ => g₁.Consistent ∧
      g₁.contents = g.contents.withRules (g.rules.filter (· != ⟨"A", ["b"]⟩)) := by
    apply Succeeds.discard
    apply Succeeds.bind (hg.succeeds_eraseRule (by simp [hrules, twoSteps]))
    exact fun _ _ h => Succeeds.pure h
  apply Succeeds.bind hrule
  rintro _ g₁ ⟨hg₁, hc₁⟩
  obtain ⟨-, hterminals₁, hnonterminals₁, hrules₁, -⟩ := Contents.mk.inj hc₁
  have hterminal : Succeeds (discard (Operation.eraseTerminals ["b"]).edit) g₁ fun _ g₂ => g₂.Consistent ∧
      g₂.contents = g₁.contents.withTerminals (g₁.terminals.filter fun t => !(["b"].contains t)) := by
    apply Succeeds.discard
    refine Succeeds.bind (hg₁.succeeds_eraseTerminals (by simp) ?_ ?_) fun _ _ h => Succeeds.pure h
    · simp [hterminals₁, hterminals, contents]
    · rw [hrules₁, hrules]
      decide
  apply Succeeds.bind hterminal
  rintro _ g₂ ⟨hg₂, hc₂⟩
  obtain ⟨-, hterminals₂, hnonterminals₂, -, -⟩ := Contents.mk.inj hc₂
  refine Succeeds.pure ⟨hg₂, ?_⟩
  rw [symbols, hterminals₂, hnonterminals₂]
  simp [contents, hterminals₁, hnonterminals₁, hterminals, hnonterminals]

/-- One writer takes the second rule back when it is given the first line, and another takes one line only. -/
theorem listings_of_twoSteps :
    ∃ g, Grammar.ofParts "S" ["a", "b"] ["A"] twoSteps .standard = .ok g ∧
      (∃ (log : List Writing) (s : Grammar × Unit),
        Grammar.writeRules (Writer.ofOperations takeBack) (g, ()) = .error (.unlisted ⟨"A", ["b"]⟩ "b") s ∧
        Grammar.writeRules (Writer.ofOperations takeBack).logged (g, (), []) =
          withWritings log (.error (.unlisted ⟨"A", ["b"]⟩ "b") s) ∧ log.length ≤ 2) ∧
      (∃ log, Grammar.writeRules Writer.countdown.logged (g, 1, []) =
          withWritings log (Grammar.writeRules Writer.countdown (g, 1)) ∧
        written log = ["S -> A 'a'\n"] ∧ ∃ e s, Grammar.writeRules Writer.countdown (g, 1) = .error e s) ∧
      g.listing = .ok "S -> A 'a'\nA -> 'b'\n" := by
  obtain ⟨g, hg, hcontents⟩ := Grammar.ofParts_eq_ok "S" ["a", "b"] ["A"] twoSteps .standard
    (by decide) (by decide) (by decide) (by decide) (by decide)
  obtain ⟨-, hterminals, hnonterminals, hrules, -⟩ := Grammar.Contents.mk.inj hcontents
  have hconsistent : g.Consistent := .ofParts hg
  have hlines : g.rules.map g.lineOf = ["S -> A 'a'\n", "A -> 'b'\n"] := by
    rw [hrules]
    simp [twoSteps, Grammar.lineOf, Grammar.listedSymbol, hterminals]
  obtain ⟨hany, hidle, hlisting⟩ := listings_follow_the_rules (.ofParts hg)
  refine ⟨g, hg, ?_, ?_, ?_⟩
  · obtain ⟨_, g₂, hrun, hg₂, hb⟩ := hconsistent.succeeds_takeBack hterminals hnonterminals hrules
    have hfirst : Grammar.writeRule (Writer.ofOperations takeBack) ⟨"S", ["A", "a"]⟩ (g, ()) = .ok () (g₂, ()) := by
      rw [Grammar.writeRule_of_ok (hconsistent.ruleLine_eq (by simp [hrules, twoSteps]))]
      simp only [Writer.ofOperations, Observed.ofEdit, hrun]
    have hsecond : Grammar.writeRule (Writer.ofOperations takeBack) ⟨"A", ["b"]⟩ (g₂, ()) =
        .error (.unlisted ⟨"A", ["b"]⟩ "b") (g₂, ()) := by
      apply Grammar.writeRule_of_error
      simp [Grammar.ruleLine, Grammar.listedSequence, hg₂.listedSymbol?_eq, hb]
    have herror : Grammar.writeRules (Writer.ofOperations takeBack) (g, ()) =
        .error (.unlisted ⟨"A", ["b"]⟩ "b") (g₂, ()) := by
      change (g.rules.forM (Grammar.writeRule (Writer.ofOperations takeBack)) : Observed Unit Unit) (g, ()) = _
      rw [hrules, twoSteps, forM_cons_of_ok _ hfirst, forM_cons_of_error _ hsecond]
    obtain ⟨log, hlog, hlength, -⟩ := hany Unit _ () (Writer.editing_ofOperations takeBack)
    rw [herror] at hlog
    rw [hrules] at hlength
    exact ⟨log, _, herror, hlog, hlength⟩
  · obtain ⟨-, -, -, hfails⟩ := hidle Nat Writer.countdown 1 Writer.countdown_idle
    obtain ⟨log, hrun, hwritten, hiff⟩ := hfails 1 (Writer.countdown_failsFrom g 1)
    rw [hlines] at hwritten
    refine ⟨log, hrun, hwritten, hiff.mpr ?_⟩
    rw [hrules]
    decide
  · rw [hlisting, hlines]
    rfl

end ContextFree
