import ContextFree.Rule
import Mathlib.Tactic

/-!
# Keys determine what they stand for

Escapes form a prefix code, and none of them starts with a bare quote. So a quoted text can be read back
whatever follows it, and the keys of sequences and of rules are injective, for any choice of the characters
that may stand for themselves.
-/

namespace ContextFree
namespace Text

lemma digitChar_inj {m n : Nat} (hm : m < 16) (hn : n < 16) (h : Nat.digitChar m = Nat.digitChar n) :
    m = n := by
  have hall : ∀ i j : Fin 16, Nat.digitChar i = Nat.digitChar j → i = j := by decide
  exact congrArg Fin.val (hall ⟨m, hm⟩ ⟨n, hn⟩ h)

lemma length_hexDigits (width n : Nat) : (hexDigits width n).length = width := by
  induction width generalizing n with
  | zero => rfl
  | succ width ih => simp [hexDigits, ih]

lemma hexDigits_inj {width m n : Nat} (hm : m < 16 ^ width) (hn : n < 16 ^ width)
    (h : hexDigits width m = hexDigits width n) : m = n := by
  induction width generalizing m n with
  | zero => simp only [pow_zero, Nat.lt_one_iff] at hm hn; omega
  | succ width ih =>
    obtain ⟨hinit, hlast⟩ := List.append_inj h (by simp only [length_hexDigits])
    have hdiv : m / 16 = n / 16 := by
      apply ih _ _ hinit
      · exact Nat.div_lt_of_lt_mul (by rwa [pow_succ, mul_comm] at hm)
      · exact Nat.div_lt_of_lt_mul (by rwa [pow_succ, mul_comm] at hn)
    have hmod : m % 16 = n % 16 :=
      digitChar_inj (Nat.mod_lt _ (by decide)) (Nat.mod_lt _ (by decide)) (List.singleton_inj.mp hlast)
    omega

lemma hexDigits_append_inj {width m n : Nat} {x y : List Char} (hm : m < 16 ^ width) (hn : n < 16 ^ width)
    (h : hexDigits width m ++ x = hexDigits width n ++ y) : m = n ∧ x = y := by
  obtain ⟨hdigits, hrest⟩ := List.append_inj h (by simp only [length_hexDigits])
  exact ⟨hexDigits_inj hm hn hdigits, hrest⟩

/-- The letter for the width of a code escape, and the width. -/
def codeWidth (c : Char) : Char × Nat :=
  if c.toNat < 0x20 ∨ c.toNat = 0x7F then ('x', 2)
  else if c.toNat < 0x10000 then ('u', 4)
  else ('U', 8)

lemma escapeCode_eq (c : Char) :
    escapeCode c = '\\' :: (codeWidth c).1 :: hexDigits (codeWidth c).2 c.toNat := by
  unfold escapeCode codeWidth
  split
  · rfl
  · split <;> rfl

lemma toNat_lt_codeWidth (c : Char) : c.toNat < 16 ^ (codeWidth c).2 := by
  have hc : c.toNat < 0x110000 := by
    rcases c.valid with h | h
    · exact h.trans (by decide)
    · exact h.2
  unfold codeWidth
  split
  · dsimp only; omega
  · split
    · dsimp only; omega
    · dsimp only; omega

lemma codeWidth_snd_of_fst {c d : Char} (h : (codeWidth c).1 = (codeWidth d).1) :
    (codeWidth c).2 = (codeWidth d).2 := by
  revert h
  unfold codeWidth
  split_ifs <;> simp

/-- The characters with a mark of their own, each with its mark. -/
def markedChars : List (Char × Char) :=
  [('"', '"'), ('\\', '\\'), ('\x07', 'a'), ('\x08', 'b'), ('\x0c', 'f'), ('\n', 'n'), ('\x0d', 'r'),
   ('\t', 't'), ('\x0b', 'v')]

lemma mem_markedChars {c m : Char} (h : escapeMark c = some m) : (c, m) ∈ markedChars := by
  unfold escapeMark at h
  split at h <;> first | (cases h; decide) | cases h

lemma escapeMark_inj {c d m : Char} (hc : escapeMark c = some m) (hd : escapeMark d = some m) : c = d := by
  have hall : ∀ p ∈ markedChars, ∀ q ∈ markedChars, p.2 = q.2 → p.1 = q.1 := by decide
  exact hall _ (mem_markedChars hc) _ (mem_markedChars hd) rfl

lemma escapeMark_ne_codeWidth {c m : Char} (h : escapeMark c = some m) (d : Char) :
    m ≠ (codeWidth d).1 := by
  have hall : ∀ p ∈ markedChars, p.2 ≠ 'x' ∧ p.2 ≠ 'u' ∧ p.2 ≠ 'U' := by decide
  obtain ⟨hx, hu, hU⟩ := hall _ (mem_markedChars h)
  unfold codeWidth
  split_ifs
  · exact hx
  · exact hu
  · exact hU

lemma escape_cases (printable : Char → Bool) (c : Char) :
    (∃ m, escapeMark c = some m ∧ escape printable c = ['\\', m]) ∨
    (c ≠ '"' ∧ c ≠ '\\' ∧ escape printable c = [c]) ∨
    escape printable c = '\\' :: (codeWidth c).1 :: hexDigits (codeWidth c).2 c.toNat := by
  unfold escape
  cases hmark : escapeMark c with
  | some m => exact .inl ⟨m, rfl, rfl⟩
  | none =>
    by_cases hp : printable c = true
    · refine .inr (.inl ⟨?_, ?_, by simp [hp]⟩)
      · rintro rfl
        cases hmark
      · rintro rfl
        cases hmark
    · exact .inr (.inr (by simp [hp, escapeCode_eq]))

/-- Escapes form a prefix code. -/
theorem escape_append_inj {printable : Char → Bool} {c d : Char} {x y : List Char}
    (h : escape printable c ++ x = escape printable d ++ y) : c = d ∧ x = y := by
  rcases escape_cases printable c with ⟨m, hm, hc⟩ | ⟨-, hcb, hc⟩ | hc <;>
  rcases escape_cases printable d with ⟨k, hk, hd⟩ | ⟨-, hdb, hd⟩ | hd <;>
  simp only [hc, hd, List.cons_append, List.nil_append, List.cons.injEq, true_and] at h
  · obtain ⟨rfl, hxy⟩ := h
    exact ⟨escapeMark_inj hm hk, hxy⟩
  · exact absurd h.1.symm hdb
  · exact absurd h.1 (escapeMark_ne_codeWidth hm d)
  · exact absurd h.1 hcb
  · exact h
  · exact absurd h.1 hcb
  · exact absurd h.1.symm (escapeMark_ne_codeWidth hk c)
  · exact absurd h.1.symm hdb
  · have hwidth := codeWidth_snd_of_fst h.1
    have hd := toNat_lt_codeWidth d
    rw [hwidth] at h
    obtain ⟨hcode, hxy⟩ := hexDigits_append_inj (by rw [← hwidth]; exact toNat_lt_codeWidth c) hd h.2
    exact ⟨Char.toNat_inj.mp hcode, hxy⟩

lemma escape_append_ne_quote {printable : Char → Bool} {c : Char} {x y : List Char} :
    escape printable c ++ x ≠ '"' :: y := by
  intro h
  rcases escape_cases printable c with ⟨m, -, hc⟩ | ⟨hq, -, hc⟩ | hc
  · rw [hc] at h
    exact absurd (List.cons.inj h).1 (by decide)
  · rw [hc] at h
    exact hq (List.cons.inj h).1
  · rw [hc] at h
    exact absurd (List.cons.inj h).1 (by decide)

lemma flatMap_escape_inj {printable : Char → Bool} {s t x y : List Char}
    (h : s.flatMap (escape printable) ++ '"' :: x = t.flatMap (escape printable) ++ '"' :: y) :
    s = t ∧ x = y := by
  induction s generalizing t with
  | nil =>
    cases t with
    | nil => exact ⟨rfl, (List.cons.inj h).2⟩
    | cons d t =>
      rw [List.flatMap_cons, List.append_assoc] at h
      exact absurd h.symm escape_append_ne_quote
  | cons c s ih =>
    cases t with
    | nil =>
      rw [List.flatMap_cons, List.append_assoc] at h
      exact absurd h escape_append_ne_quote
    | cons d t =>
      rw [List.flatMap_cons, List.flatMap_cons, List.append_assoc, List.append_assoc] at h
      obtain ⟨rfl, hrest⟩ := escape_append_inj h
      obtain ⟨rfl, hxy⟩ := ih hrest
      exact ⟨rfl, hxy⟩

/-- A quoted text can be read back whatever follows it. -/
theorem quoteChars_append_inj {printable : Char → Bool} {s t : String} {x y : List Char}
    (h : quoteChars printable s ++ x = quoteChars printable t ++ y) : s = t ∧ x = y := by
  unfold quoteChars at h
  simp only [List.cons_append, List.append_assoc, List.nil_append, List.cons.injEq, true_and] at h
  obtain ⟨hchars, hxy⟩ := flatMap_escape_inj h
  exact ⟨String.toList_inj.mp hchars, hxy⟩

end Text

lemma flatMap_inj_of_append_inj {f : Symbol → List Char} (hne : ∀ s, f s ≠ [])
    (hf : ∀ {s t x y}, f s ++ x = f t ++ y → s = t ∧ x = y) {c d : List Symbol}
    (h : c.flatMap f = d.flatMap f) : c = d := by
  induction c generalizing d with
  | nil =>
    cases d with
    | nil => rfl
    | cons t d => simp [hne] at h
  | cons s c ih =>
    cases d with
    | nil => simp [hne] at h
    | cons t d =>
      rw [List.flatMap_cons, List.flatMap_cons] at h
      obtain ⟨rfl, hrest⟩ := hf h
      rw [ih hrest]

lemma sequenceKey_inj {printable : Char → Bool} {c d : List Symbol} :
    sequenceKey printable c = sequenceKey printable d ↔ c = d := by
  constructor
  · intro h
    exact flatMap_inj_of_append_inj (by simp [Text.quoteChars]) Text.quoteChars_append_inj
      (String.ofList_injective h)
  · exact fun h => congrArg _ h

lemma same_at_positions_iff {u v : List Symbol} :
    u.length = v.length ∧ ((u.zip v).all fun (s, t) => s == t) = true ↔ u = v := by
  induction u generalizing v with
  | nil => cases v <;> simp
  | cons s u ih =>
    cases v with
    | nil => simp
    | cons t v =>
      rw [List.cons.injEq, ← ih, List.zip_cons_cons, List.all_cons, Bool.and_eq_true, beq_iff_eq,
        List.length_cons, List.length_cons, Nat.add_right_cancel_iff]
      exact and_left_comm

namespace Rule

attribute [ext] Rule

lemma keyWith_inj {printable : Char → Bool} {r o : Rule} :
    r.keyWith printable = o.keyWith printable ↔ r = o := by
  constructor
  · intro h
    obtain ⟨hleft, hright⟩ := Text.quoteChars_append_inj (String.ofList_injective h)
    ext1
    · exact hleft
    · exact flatMap_inj_of_append_inj (by simp)
        (fun h => Text.quoteChars_append_inj (List.cons.inj h).2) hright
  · exact fun h => congrArg _ h

lemma key_inj {r o : Rule} : r.key = o.key ↔ r = o :=
  keyWith_inj

lemma agrees_iff {r o : Rule} : r.agrees o = true ↔ r.left = o.left ∧ r.right = o.right := by
  simp only [agrees, Bool.and_eq_true, beq_iff_eq, and_assoc, same_at_positions_iff]

end Rule

/-- Rules have the same key if and only if they agree in their left symbols and, symbol by symbol, in their right
sides; and sequences have the same key if and only if they are the same. This holds of all texts, those that look
quoted themselves included, and whichever characters without a mark of their own may stand for themselves;
`Rule.key` is the case of the printable characters. -/
theorem keys_tell_rules_and_sequences_apart (printable : Char → Bool) :
    (∀ r o : Rule,
      (r.keyWith printable = o.keyWith printable ↔ r.agrees o = true) ∧
      (r.agrees o = true ↔ r.left = o.left ∧ r.right = o.right)) ∧
    ∀ c d : List Symbol, sequenceKey printable c = sequenceKey printable d ↔ c = d := by
  refine ⟨fun r o => ⟨?_, Rule.agrees_iff⟩, fun c d => sequenceKey_inj⟩
  rw [Rule.keyWith_inj, Rule.agrees_iff, Rule.ext_iff]

example : sequenceKey Text.isPrintable ["a", "b"] = "\"a\"\"b\"" := by decide +kernel

example : sequenceKey Text.isPrintable ["a\"\"b"] = "\"a\\\"\\\"b\"" := by decide +kernel

end ContextFree
