import ContextFree.Grammar.Query
import ContextFree.Proofs.Attainability

/-!
# Grammars as plain lists

The contents of a grammar, without indexes, can serve the same requests: a symbol is looked up in the lists, a rule
is compared with every rule there is, and the rules are searched for mentions of a symbol. A caller cannot tell
which of the two answers: from the same parts and for the same requests, the outcomes are the same, errors
included, and so are the lists after every request.
-/

namespace ContextFree

/-- What may be asked of a grammar. -/
inductive Request where
  /-- Start over with another grammar. -/
  | new (start : Symbol) (terminals nonterminals : List Symbol) (rules : List Rule) (namer : Namer)
  | insertTerminal (t : Symbol)
  | eraseTerminal (t : Symbol)
  | insertNonterminal (n : Symbol)
  | eraseNonterminal (n : Symbol)
  | setStart (n : Symbol)
  | insertRule (r : Rule)
  | eraseRule (r : Rule)
  | insertFresh
  | insertTerminals (ts : List Symbol)
  | eraseTerminals (ts : List Symbol)
  | insertNonterminals (ns : List Symbol)
  | eraseNonterminals (ns : List Symbol)
  | insertRules (rs : List Rule)
  | eraseRules (rs : List Rule)
  | hasRule (r : Rule)
  | isTerminal (s : Symbol)
  | isNonterminal (s : Symbol)
  | usesTerminal (t : Symbol)
  | usesNonterminal (n : Symbol)
  | usedTerminals
  | unusedTerminals
  | rulesFor (n : Symbol)
  | rulesUsing (s : Symbol)
  | ruleless
  | freshName

inductive Answer where
  | done
  | truth (b : Bool)
  | symbol (s : Symbol)
  | symbols (ss : List Symbol)
  | rules (rs : List Rule)
deriving DecidableEq, Repr

/-- A new state unless it cannot be had. -/
def replaceBy {σ : Type} (state : Except Error σ) : EStateM Error σ Unit := fun s =>
  match state with
  | .error e => .error e s
  | .ok s' => .ok () s'

open Grammar in
/-- How a grammar with indexes serves a request. -/
def Request.edit : Request → Edit Answer
  | new start terminals nonterminals rules namer => do
    replaceBy (ofParts start terminals nonterminals rules namer)
    return .done
  | insertTerminal t => do Grammar.insertTerminal t; return .done
  | eraseTerminal t => do Grammar.eraseTerminal t; return .done
  | insertNonterminal n => do Grammar.insertNonterminal n; return .done
  | eraseNonterminal n => do Grammar.eraseNonterminal n; return .done
  | setStart n => do Grammar.setStart n; return .done
  | insertRule r => do Grammar.insertRule r; return .done
  | eraseRule r => do Grammar.eraseRule r; return .done
  | insertFresh => return .symbol (← Grammar.insertFresh)
  | insertTerminals ts => do Grammar.insertTerminals ts; return .done
  | eraseTerminals ts => do Grammar.eraseTerminals ts; return .done
  | insertNonterminals ns => do Grammar.insertNonterminals ns; return .done
  | eraseNonterminals ns => do Grammar.eraseNonterminals ns; return .done
  | insertRules rs => do Grammar.insertRules rs; return .done
  | eraseRules rs => do Grammar.eraseRules rs; return .done
  | hasRule r => return .truth ((← get).hasRule r)
  | isTerminal s => return .truth ((← get).isTerminal s)
  | isNonterminal s => return .truth ((← get).isNonterminal s)
  | usesTerminal t => return .truth ((← get).usesTerminal t)
  | usesNonterminal n => return .truth ((← get).usesNonterminal n)
  | usedTerminals => return .symbols (← get).usedTerminals
  | unusedTerminals => return .symbols (← get).unusedTerminals
  | rulesFor n => return .rules (← Edit.query (Grammar.rulesFor · n))
  | rulesUsing s => return .rules (← Edit.query (Grammar.rulesUsing · s))
  | ruleless => return .symbols (← get).ruleless
  | freshName => return .symbol (← get).freshName

/-- What a caller gets to see: the outcome of every request, and the contents after it. -/
def transcript {σ : Type} (respond : Request → EStateM Error σ Answer) (contents : σ → Grammar.Contents) :
    List Request → σ → List (Except Error Answer × Grammar.Contents)
  | [], _ => []
  | request :: later, s =>
    match respond request s with
    | .ok answer s' => (.ok answer, contents s') :: transcript respond contents later s'
    | .error e s' => (.error e, contents s') :: transcript respond contents later s'

/-! ### Requests served by scanning the lists -/

namespace Grammar.Contents

/-- A computation on the lists of a grammar. -/
abbrev Scan := EStateM Error Contents

def empty (namer : Namer) : Contents :=
  ⟨"", [], [], [], namer⟩

def isTerminal (c : Contents) (s : Symbol) : Bool :=
  c.terminals.contains s

def isNonterminal (c : Contents) (s : Symbol) : Bool :=
  c.nonterminals.contains s

def hasSymbol (c : Contents) (s : Symbol) : Bool :=
  c.isTerminal s || c.isNonterminal s

def hasRule (c : Contents) (r : Rule) : Bool :=
  c.rules.contains r

def isMentioned (c : Contents) (s : Symbol) : Bool :=
  c.rules.any fun r => s == r.left || r.right.contains s

def freshName (c : Contents) : Symbol :=
  c.namer.firstUnused c.hasSymbol (c.namer.bound (c.terminals ++ c.nonterminals))

def guarded (refusal : Contents → Option Error) (update : Contents → Contents) : Scan Unit := fun c =>
  match refusal c with
  | some e => .error e c
  | none => .ok () (update c)

def query {α : Type} (question : Contents → Except Error α) : Scan α := fun c =>
  match question c with
  | .error e => .error e c
  | .ok a => .ok a c

def newSymbolCause? (c : Contents) (s : Symbol) : Option Cause :=
  if s = "" then some .emptySymbol
  else if c.isTerminal s then some .terminalExists
  else if c.isNonterminal s then some .nonterminalExists
  else none

def insertTerminal (t : Symbol) : Scan Unit :=
  guarded (fun c => (c.newSymbolCause? t).map (.symbolRefused .insertTerminal t)) fun c =>
    c.withTerminals (c.terminals ++ [t])

def insertNonterminal (n : Symbol) : Scan Unit :=
  guarded (fun c => (c.newSymbolCause? n).map (.symbolRefused .insertNonterminal n)) fun c =>
    c.withNonterminals (c.nonterminals ++ [n])

def eraseTerminalCause? (c : Contents) (t : Symbol) : Option Cause :=
  if !c.isTerminal t then some .terminalNotFound
  else if c.isMentioned t then some .symbolInUse
  else none

def eraseTerminal (t : Symbol) : Scan Unit :=
  guarded (fun c => (c.eraseTerminalCause? t).map (.symbolRefused .eraseTerminal t)) fun c =>
    c.withTerminals (c.terminals.erase t)

def eraseNonterminalCause? (c : Contents) (n : Symbol) : Option Cause :=
  if !c.isNonterminal n then some .nonterminalNotFound
  else if c.isMentioned n then some .symbolInUse
  else if n = c.start then some .startSymbol
  else none

def eraseNonterminal (n : Symbol) : Scan Unit :=
  guarded (fun c => (c.eraseNonterminalCause? n).map (.symbolRefused .eraseNonterminal n)) fun c =>
    c.withNonterminals (c.nonterminals.erase n)

def setStart (n : Symbol) : Scan Unit :=
  guarded (fun c => if c.isNonterminal n then none else some (.symbolRefused .setStart n .nonterminalNotFound))
    fun c => c.withStart n

def insertRuleRefusal? (c : Contents) (r : Rule) : Option Error :=
  if !c.isNonterminal r.left then some (.unknownLeft r)
  else match r.right.find? fun s => !c.hasSymbol s with
    | some s => some (.unknownRight r s)
    | none => if c.hasRule r then some (.ruleRefused .insert r .ruleExists) else none

def insertRule (r : Rule) : Scan Unit :=
  guarded (insertRuleRefusal? · r) fun c => c.withRules (c.rules ++ [r])

def eraseRule (r : Rule) : Scan Unit :=
  guarded (fun c => if c.hasRule r then none else some (.ruleRefused .erase r .ruleNotFound)) fun c =>
    c.withRules (c.rules.erase r)

def insertFresh : Scan Symbol := do
  let n := (← get).freshName
  insertNonterminal n
  return n

def build (start : Symbol) (terminals nonterminals : List Symbol) (rules : List Rule) : Scan Unit := do
  insertNonterminal start
  setStart start
  terminals.forM insertTerminal
  nonterminals.forM insertNonterminal
  rules.forM insertRule

def ofParts (start : Symbol) (terminals nonterminals : List Symbol) (rules : List Rule)
    (namer : Namer) : Except Error Contents :=
  match build start terminals nonterminals rules (empty namer) with
  | .ok _ c => .ok c
  | .error e _ => .error (.construction e)

def rulesFor (c : Contents) (n : Symbol) : Except Error (List Rule) :=
  if c.isNonterminal n then .ok (c.rules.filter (·.left = n))
  else .error (.symbolRefused .rulesFor n .nonterminalNotFound)

def rulesUsing (c : Contents) (s : Symbol) : Except Error (List Rule) :=
  if c.hasSymbol s then .ok (c.rules.filter (·.right.contains s))
  else .error (.symbolRefused .rulesUsing s .symbolNotFound)

end Grammar.Contents

open Grammar in
/-- How plain lists serve a request. -/
def Request.scan : Request → Contents.Scan Answer
  | new start terminals nonterminals rules namer => do
    replaceBy (Contents.ofParts start terminals nonterminals rules namer)
    return .done
  | insertTerminal t => do Contents.insertTerminal t; return .done
  | eraseTerminal t => do Contents.eraseTerminal t; return .done
  | insertNonterminal n => do Contents.insertNonterminal n; return .done
  | eraseNonterminal n => do Contents.eraseNonterminal n; return .done
  | setStart n => do Contents.setStart n; return .done
  | insertRule r => do Contents.insertRule r; return .done
  | eraseRule r => do Contents.eraseRule r; return .done
  | insertFresh => return .symbol (← Contents.insertFresh)
  | insertTerminals ts => do ts.forM Contents.insertTerminal; return .done
  | eraseTerminals ts => do ts.forM Contents.eraseTerminal; return .done
  | insertNonterminals ns => do ns.forM Contents.insertNonterminal; return .done
  | eraseNonterminals ns => do ns.forM Contents.eraseNonterminal; return .done
  | insertRules rs => do rs.forM Contents.insertRule; return .done
  | eraseRules rs => do rs.forM Contents.eraseRule; return .done
  | hasRule r => return .truth ((← get).hasRule r)
  | isTerminal s => return .truth ((← get).isTerminal s)
  | isNonterminal s => return .truth ((← get).isNonterminal s)
  | usesTerminal t => do
    let c ← get
    return .truth (c.isTerminal t && c.isMentioned t)
  | usesNonterminal n => do
    let c ← get
    return .truth (c.isNonterminal n && c.isMentioned n)
  | usedTerminals => do
    let c ← get
    return .symbols (c.terminals.filter c.isMentioned)
  | unusedTerminals => do
    let c ← get
    return .symbols (c.terminals.filter fun t => !c.isMentioned t)
  | rulesFor n => return .rules (← Contents.query (Contents.rulesFor · n))
  | rulesUsing s => return .rules (← Contents.query (Contents.rulesUsing · s))
  | ruleless => do
    let c ← get
    return .symbols (c.nonterminals.filter fun n => c.rules.all fun r => r.left != n)
  | freshName => return .symbol (← get).freshName

/-! ### Lookups agree -/

namespace Grammar

namespace Consistent

variable {g : Grammar} (hg : g.Consistent)

include hg

lemma isTerminal_contents (s : Symbol) : g.contents.isTerminal s = g.isTerminal s := by
  rw [Bool.eq_iff_iff, hg.isTerminal_iff]
  exact List.contains_iff_mem

lemma isNonterminal_contents (s : Symbol) : g.contents.isNonterminal s = g.isNonterminal s := by
  rw [Bool.eq_iff_iff, hg.isNonterminal_iff]
  exact List.contains_iff_mem

lemma hasSymbol_contents (s : Symbol) : g.contents.hasSymbol s = g.hasSymbol s := by
  rw [Contents.hasSymbol, hg.isTerminal_contents, hg.isNonterminal_contents, hasSymbol]

lemma hasRule_contents (r : Rule) : g.contents.hasRule r = g.hasRule r := by
  rw [Bool.eq_iff_iff, hg.hasRule_iff]
  exact List.contains_iff_mem

lemma isMentioned_contents (s : Symbol) : g.contents.isMentioned s = g.isMentioned s := by
  rw [Bool.eq_iff_iff, hg.isMentioned_iff]
  simp [Contents.isMentioned, contents]

lemma freshName_contents : g.contents.freshName = g.freshName := by
  have hsymbols : g.contents.hasSymbol = g.hasSymbol := by
    funext s
    exact hg.hasSymbol_contents s
  rw [Contents.freshName, hsymbols]
  rfl

end Consistent

/-! ### Requests agree -/

/-- The outcome of an edit as far as the lists go. -/
def viewed {α : Type} : EStateM.Result Error Grammar α → EStateM.Result Error Contents α
  | .ok a g => .ok a g.contents
  | .error e g => .error e g.contents

/-- The edit keeps grammars consistent, and the scan of their lists has the same outcome. -/
structure Mirrors {α : Type} (edit : Edit α) (scan : Contents.Scan α) : Prop where
  keeps : Keeps Consistent edit
  agrees : ∀ g, g.Consistent → scan g.contents = viewed (edit g)

namespace Mirrors

variable {α β : Type} {edit : Edit α} {scan : Contents.Scan α}

lemma pure (a : α) : Mirrors (Pure.pure a) (Pure.pure a) :=
  ⟨Keeps.pure a, fun _ _ => rfl⟩

lemma bind {next : α → Edit β} {next' : α → Contents.Scan β} (h : Mirrors edit scan)
    (hnext : ∀ a, Mirrors (next a) (next' a)) : Mirrors (edit >>= next) (scan >>= next') := by
  refine ⟨Keeps.bind h.keeps fun a => (hnext a).keeps, fun g hg => ?_⟩
  have hscan := h.agrees g hg
  have hkept := h.keeps g hg
  cases hedit : edit g with
  | ok a g' =>
    rw [hedit] at hscan
    rw [stateAfter_of_ok hedit] at hkept
    rw [bind_of_ok hscan, bind_of_ok hedit]
    exact (hnext a).agrees g' hkept
  | error e g' =>
    rw [hedit] at hscan
    rw [bind_of_error hscan, bind_of_error hedit]
    rfl

lemma forM {f : α → Edit PUnit} {f' : α → Contents.Scan PUnit} (h : ∀ x, Mirrors (f x) (f' x)) (xs : List α) :
    Mirrors (xs.forM f) (xs.forM f') := by
  induction xs with
  | nil => exact pure _
  | cons x xs ih => exact bind (h x) fun _ => ih

lemma guarded {refusal : Grammar → Option Error} {update : Grammar → Grammar}
    {refusal' : Contents → Option Error} {update' : Contents → Contents}
    (hkeeps : Keeps Consistent (Edit.guarded refusal update))
    (hrefusal : ∀ g, g.Consistent → refusal' g.contents = refusal g)
    (hupdate : ∀ g, update' g.contents = (update g).contents) :
    Mirrors (Edit.guarded refusal update) (Contents.guarded refusal' update') := by
  refine ⟨hkeeps, fun g hg => ?_⟩
  unfold Edit.guarded Contents.guarded
  rw [hrefusal g hg]
  cases refusal g with
  | none => exact congrArg (EStateM.Result.ok ()) (hupdate g)
  | some e => rfl

lemma query {question : Grammar → Except Error α} {question' : Contents → Except Error α}
    (h : ∀ g, g.Consistent → question' g.contents = question g) :
    Mirrors (Edit.query question) (Contents.query question') := by
  refine ⟨Keeps.query question, fun g hg => ?_⟩
  unfold Edit.query Contents.query
  rw [h g hg]
  cases question g <;> rfl

lemma answer {f : Grammar → Answer} {f' : Contents → Answer} (h : ∀ g, g.Consistent → f' g.contents = f g) :
    Mirrors (do return f (← get)) (do return f' (← get)) :=
  ⟨Keeps.bind Keeps.get fun _ => Keeps.pure _, fun g hg => congrArg (EStateM.Result.ok · g.contents) (h g hg)⟩

lemma replaceBy {built : Except Error Grammar} {built' : Except Error Contents}
    (hbuilt : ∀ g, built = .ok g → g.Consistent) (hsame : built.map contents = built') :
    Mirrors (replaceBy built) (replaceBy built') := by
  subst hsame
  cases built with
  | error e => exact ⟨fun g hg => hg, fun _ _ => rfl⟩
  | ok g' => exact ⟨fun _ _ => hbuilt g' rfl, fun _ _ => rfl⟩

lemma insertTerminal (t : Symbol) : Mirrors (Grammar.insertTerminal t) (Contents.insertTerminal t) := by
  refine guarded (Consistent.keeps_insertTerminal t) (fun g hg => ?_) fun g => rfl
  simp only [Contents.newSymbolCause?, newSymbolCause?, hg.isTerminal_contents, hg.isNonterminal_contents]

lemma insertNonterminal (n : Symbol) : Mirrors (Grammar.insertNonterminal n) (Contents.insertNonterminal n) := by
  refine guarded (Consistent.keeps_insertNonterminal n) (fun g hg => ?_) fun g => rfl
  simp only [Contents.newSymbolCause?, newSymbolCause?, hg.isTerminal_contents, hg.isNonterminal_contents]

lemma eraseTerminal (t : Symbol) : Mirrors (Grammar.eraseTerminal t) (Contents.eraseTerminal t) := by
  refine guarded (Consistent.keeps_eraseTerminal t) (fun g hg => ?_) fun g => rfl
  simp only [Contents.eraseTerminalCause?, eraseTerminalCause?, hg.isTerminal_contents, hg.isMentioned_contents]

lemma eraseNonterminal (n : Symbol) : Mirrors (Grammar.eraseNonterminal n) (Contents.eraseNonterminal n) := by
  refine guarded (Consistent.keeps_eraseNonterminal n) (fun g hg => ?_) fun g => rfl
  simp only [Contents.eraseNonterminalCause?, eraseNonterminalCause?, hg.isNonterminal_contents,
    hg.isMentioned_contents]
  rfl

lemma setStart (n : Symbol) : Mirrors (Grammar.setStart n) (Contents.setStart n) := by
  refine guarded (Consistent.keeps_setStart n) (fun g hg => ?_) fun g => rfl
  simp only [hg.isNonterminal_contents]

lemma insertRule (r : Rule) : Mirrors (Grammar.insertRule r) (Contents.insertRule r) := by
  refine guarded (Consistent.keeps_insertRule r) (fun g hg => ?_) fun g => rfl
  simp only [Contents.insertRuleRefusal?, hg.isNonterminal_contents, hg.hasSymbol_contents, hg.hasRule_contents]
  rfl

lemma eraseRule (r : Rule) : Mirrors (Grammar.eraseRule r) (Contents.eraseRule r) := by
  refine guarded (Consistent.keeps_eraseRule r) (fun g hg => ?_) fun g => rfl
  simp only [hg.hasRule_contents]

lemma insertFresh : Mirrors Grammar.insertFresh Contents.insertFresh := by
  refine ⟨Consistent.keeps_insertFresh, fun g hg => ?_⟩
  change (Contents.insertNonterminal g.contents.freshName >>= fun _ => Pure.pure g.contents.freshName)
    g.contents = viewed ((Grammar.insertNonterminal g.freshName >>= fun _ => Pure.pure g.freshName) g)
  rw [hg.freshName_contents]
  exact ((insertNonterminal g.freshName).bind fun _ => pure g.freshName).agrees g hg

lemma additions (terminals nonterminals : List Symbol) (rules : List Rule) :
    Mirrors (do insertTerminals terminals; insertNonterminals nonterminals; insertRules rules)
      (do terminals.forM Contents.insertTerminal
          nonterminals.forM Contents.insertNonterminal
          rules.forM Contents.insertRule) :=
  bind (forM insertTerminal terminals) fun _ =>
    bind (forM insertNonterminal nonterminals) fun _ => forM insertRule rules

end Mirrors

lemma Contents.guarded_eq_ok {refusal : Contents → Option Error} {update : Contents → Contents} {c : Contents}
    (h : refusal c = none) : Contents.guarded refusal update c = .ok () (update c) := by
  simp only [Contents.guarded, h]

lemma Contents.build_eq {start : Symbol} (terminals nonterminals : List Symbol) (rules : List Rule)
    (namer : Namer) (hstart : start ≠ "") :
    Contents.build start terminals nonterminals rules (Contents.empty namer) =
      (do terminals.forM Contents.insertTerminal
          nonterminals.forM Contents.insertNonterminal
          rules.forM Contents.insertRule : Contents.Scan Unit) (seed start namer).contents := by
  have hinsert : Contents.insertNonterminal start (Contents.empty namer) =
      .ok () ((seed start namer).contents.withStart "") := by
    apply Contents.guarded_eq_ok
    simp [Contents.newSymbolCause?, hstart, Contents.empty, Contents.isTerminal, Contents.isNonterminal]
  have hset : Contents.setStart start ((seed start namer).contents.withStart "") =
      .ok () (seed start namer).contents := by
    apply Contents.guarded_eq_ok
    simp [Contents.isNonterminal, Contents.withStart, seed, contents]
  unfold Contents.build
  rw [bind_of_ok hinsert, bind_of_ok hset]

lemma contents_ofParts (start : Symbol) (terminals nonterminals : List Symbol) (rules : List Rule)
    (namer : Namer) :
    (ofParts start terminals nonterminals rules namer).map contents =
      Contents.ofParts start terminals nonterminals rules namer := by
  by_cases hstart : start = ""
  · subst hstart
    rfl
  have hagrees := (Mirrors.additions terminals nonterminals rules).agrees _ (Consistent.seed namer hstart)
  unfold ofParts Contents.ofParts
  rw [build_eq terminals nonterminals rules namer hstart,
    Contents.build_eq terminals nonterminals rules namer hstart, hagrees]
  cases (do insertTerminals terminals; insertNonterminals nonterminals; insertRules rules : Edit Unit)
    (seed start namer) <;> rfl

lemma Mirrors.request (request : Request) : Mirrors request.edit request.scan := by
  cases request with
  | new start terminals nonterminals rules namer =>
    refine bind (.replaceBy (fun g => Consistent.ofParts) ?_) fun _ => pure _
    exact contents_ofParts start terminals nonterminals rules namer
  | insertTerminal t => exact bind (insertTerminal t) fun _ => pure _
  | eraseTerminal t => exact bind (eraseTerminal t) fun _ => pure _
  | insertNonterminal n => exact bind (insertNonterminal n) fun _ => pure _
  | eraseNonterminal n => exact bind (eraseNonterminal n) fun _ => pure _
  | setStart n => exact bind (setStart n) fun _ => pure _
  | insertRule r => exact bind (insertRule r) fun _ => pure _
  | eraseRule r => exact bind (eraseRule r) fun _ => pure _
  | insertFresh => exact bind insertFresh fun _ => pure _
  | insertTerminals ts => exact bind (forM insertTerminal ts) fun _ => pure _
  | eraseTerminals ts => exact bind (forM eraseTerminal ts) fun _ => pure _
  | insertNonterminals ns => exact bind (forM insertNonterminal ns) fun _ => pure _
  | eraseNonterminals ns => exact bind (forM eraseNonterminal ns) fun _ => pure _
  | insertRules rs => exact bind (forM insertRule rs) fun _ => pure _
  | eraseRules rs => exact bind (forM eraseRule rs) fun _ => pure _
  | hasRule r => exact answer fun g hg => by rw [hg.hasRule_contents]
  | isTerminal s => exact answer fun g hg => by rw [hg.isTerminal_contents]
  | isNonterminal s => exact answer fun g hg => by rw [hg.isNonterminal_contents]
  | usesTerminal t =>
    exact answer fun g hg => by rw [hg.isTerminal_contents, hg.isMentioned_contents, usesTerminal]
  | usesNonterminal n =>
    exact answer fun g hg => by rw [hg.isNonterminal_contents, hg.isMentioned_contents, usesNonterminal]
  | usedTerminals =>
    refine answer fun g hg => ?_
    simp only [funext hg.isMentioned_contents]
    rfl
  | unusedTerminals =>
    refine answer fun g hg => ?_
    simp only [hg.isMentioned_contents]
    rfl
  | rulesFor n =>
    refine bind (query fun g hg => ?_) fun _ => pure _
    simp only [Contents.rulesFor, hg.isNonterminal_contents]
    rfl
  | rulesUsing s =>
    refine bind (query fun g hg => ?_) fun _ => pure _
    simp only [Contents.rulesUsing, hg.hasSymbol_contents]
    rfl
  | ruleless =>
    refine answer fun g hg => congrArg Answer.symbols (List.filter_congr fun n _ => ?_)
    rw [Bool.eq_iff_iff]
    simp [contents]
  | freshName => exact answer fun g hg => by rw [hg.freshName_contents]

lemma Consistent.transcript_eq {g : Grammar} (hg : g.Consistent) (requests : List Request) :
    transcript Request.edit contents requests g = transcript Request.scan id requests g.contents := by
  induction requests generalizing g with
  | nil => rfl
  | cons request later ih =>
    have hagrees := (Mirrors.request request).agrees g hg
    have hkept := (Mirrors.request request).keeps g hg
    unfold transcript
    rw [hagrees]
    cases hedit : request.edit g with
    | ok answer g' =>
      rw [stateAfter_of_ok hedit] at hkept
      exact congrArg _ (ih hkept)
    | error e g' =>
      rw [stateAfter_of_error hedit] at hkept
      exact congrArg _ (ih hkept)

/-- A grammar with indexes and plain lists, made from the same parts and asked the same, cannot be told apart: the
parts are refused with the same error or give the same lists, and then every request has the same outcome and leaves
the same lists. -/
theorem indexes_cannot_be_noticed (start : Symbol) (terminals nonterminals : List Symbol) (rules : List Rule)
    (namer : Namer) (requests : List Request) :
    (ofParts start terminals nonterminals rules namer).map
        (fun g => (g.contents, transcript Request.edit contents requests g)) =
      (Contents.ofParts start terminals nonterminals rules namer).map
        fun c => (c, transcript Request.scan id requests c) := by
  rw [← contents_ofParts]
  cases hbuilt : ofParts start terminals nonterminals rules namer with
  | error e => rfl
  | ok g =>
    have hg : g.Consistent := .ofParts hbuilt
    have hsame := hg.transcript_eq requests
    simp only [Except.map]
    rw [hsame]

end Grammar

end ContextFree
