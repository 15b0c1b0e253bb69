import Lox.Proofs.Syntax.Words
import Lox.Syntax.PostfixForm

/-!
Reading an expression of operators off its postfix form, with a stack. The form shows all of the
expression but its groupings, and which of the two operators a minus stands for.
-/

namespace Lox

namespace Expr

/-- Made of numbers, names, operators and parentheses. -/
def Arithmetical : Expr → Prop
  | .literal (.number x) => Limited x
  | .variable _ | .unary .. | .binary .. | .grouping _ => True
  | _ => False

mutual

/-- The expression without its groupings. Functions are left as they are. -/
def ungrouped : Expr → Expr
  | .literal value => .literal value
  | .grouping inner => inner.ungrouped
  | .unary operator right => .unary operator right.ungrouped
  | .binary left operator right => .binary left.ungrouped operator right.ungrouped
  | .binaryError operator right => .binaryError operator right.ungrouped
  | .conditional condition thenBranch elseBranch =>
    .conditional condition.ungrouped thenBranch.ungrouped elseBranch.ungrouped
  | .variable ref => .variable ref
  | .assign target value => .assign target value.ungrouped
  | .call callee paren arguments => .call callee.ungrouped paren (ungroupedAll arguments)
  | .get object name => .get object.ungrouped name
  | .set object name value => .set object.ungrouped name value.ungrouped
  | .this ref => .this ref
  | .super ref method => .super ref method
  | .lambda function => .lambda function

def ungroupedAll : List Expr → List Expr
  | [] => []
  | e :: rest => e.ungrouped :: ungroupedAll rest

end

/-- How many operands each minus has that is printed of an arithmetical expression: a negation has one,
and a subtraction two. -/
def minuses : Expr → List Nat
  | .grouping inner => inner.minuses
  | .unary operator right => right.minuses ++ if operator.kind = .minus then [1] else []
  | .binary left operator right =>
    left.minuses ++ (right.minuses ++ if operator.kind = .minus then [2] else [])
  | _ => []

/-- The arithmetical expressions that are made of words, with numbers of `xs`. -/
inductive Arithmetic (xs : List Float) : Expr → Prop
  | number {x : Float} (hx : x ∈ xs) (hunsigned : Decimal.Unsigned x.toBits) (hlimited : Limited x) :
      Arithmetic xs (.literal (.number x))
  | «variable» {ref : Reference} (h : ref.name.Among Token.Written [.identifier]) :
      Arithmetic xs (.variable ref)
  | grouping {inner : Expr} (h : Arithmetic xs inner) : Arithmetic xs (.grouping inner)
  | unary {operator : Token} {right : Expr} (ho : operator.Among Token.Written [.bang, .minus])
      (h : Arithmetic xs right) : Arithmetic xs (.unary operator right)
  | binary {left : Expr} {operator : Token} {right : Expr} (hl : Arithmetic xs left)
      (ho : operator.Among Token.Written binaryOperators) (hr : Arithmetic xs right) :
      Arithmetic xs (.binary left operator right)

end Expr

/-- A word of a postfix form, with the number of operands before it that belong to it. -/
structure PostfixWord where
  text : String
  operands : Nat

namespace PostfixWord

/-- The kind of token that the word is. -/
def kind (w : PostfixWord) : TokenKind := (Token.ofText w.text).kind

/-- The kinds of words with so many operands. -/
def kinds : (operands : Nat) → List TokenKind
  | 0 => [.number, .identifier]
  | 1 => [.bang, .minus]
  | 2 => binaryOperators
  | _ => []

theorem lt_of_mem_kinds {kind : TokenKind} {n : Nat} (h : kind ∈ kinds n) : n < 3 := by
  match n with
  | 0 | 1 | 2 => decide
  | _ + 3 => exact absurd h List.not_mem_nil

/-- The word is one that has so many operands. -/
structure Proper (w : PostfixWord) : Prop where
  bare : Bare w.text.toList
  kind : w.kind ∈ kinds w.operands

/-- The step of a stack machine that puts an expression together, where the numbers are some of `xs`. -/
def run (xs : List Float) (stack : List Expr) (w : PostfixWord) : List Expr :=
  match w.operands, stack with
  | 0, stack => .ofText xs w.text :: stack
  | 1, right :: stack => .unary (Token.ofText w.text) right :: stack
  | 2, right :: left :: stack => .binary left (Token.ofText w.text) right :: stack
  | _, stack => stack

theorem kind_lexeme {t : Token} (h : t.Written) (n : Nat) : kind ⟨t.lexeme, n⟩ = t.kind := by
  show (Token.ofText t.lexeme).kind = t.kind
  rw [Token.ofText_lexeme h]
  rfl

theorem proper_of_among {t : Token} {n : Nat} (h : t.Among Token.Written (kinds n)) :
    Proper ⟨t.lexeme, n⟩ := by
  have hkinds : ∀ n < 3, ∀ kind ∈ kinds n, kind ∉ [.leftParen, .rightParen, .string] := by decide
  exact ⟨h.bare (hkinds n (lt_of_mem_kinds h.kind)), (kind_lexeme h.word n).symm ▸ h.kind⟩

/-- How many operands each minus among the words has. -/
def minusesOf (ws : List PostfixWord) : List Nat :=
  (ws.filter fun w => w.kind = .minus).map operands

theorem minusesOf_append (ws ws' : List PostfixWord) :
    minusesOf (ws ++ ws') = minusesOf ws ++ minusesOf ws' := by
  unfold minusesOf
  rw [List.filter_append, List.map_append]

theorem minusesOf_cons (w : PostfixWord) (ws : List PostfixWord) :
    minusesOf (w :: ws) = (if w.kind = .minus then [w.operands] else []) ++ minusesOf ws := by
  unfold minusesOf
  by_cases hminus : w.kind = .minus <;> simp [hminus]

theorem minusesOf_singleton (w : PostfixWord) :
    minusesOf [w] = if w.kind = .minus then [w.operands] else [] :=
  (minusesOf_cons w []).trans (List.append_nil _)

/-- The texts with single spaces between them. -/
def printed (ws : List PostfixWord) : String := " ".intercalate (ws.map text)

section Words

variable {ws ws' : List PostfixWord}

theorem printed_append (hne : ws ≠ []) (hne' : ws' ≠ []) :
    printed (ws ++ ws') = printed ws ++ " " ++ printed ws' := by
  unfold printed
  rw [List.map_append]
  exact String.intercalate_append_of_ne_nil (by simpa using hne) (by simpa using hne')

theorem printed_singleton (w : PostfixWord) : printed [w] = w.text := String.intercalate_singleton

/-- Single spaces between texts show the texts. -/
theorem texts_unique (hws : ∀ w ∈ ws, w.Proper) (hws' : ∀ w ∈ ws', w.Proper) (hne : ws ≠ [])
    (hne' : ws' ≠ []) (h : printed ws = printed ws') : ws.map text = ws'.map text := by
  let texts (ws : List PostfixWord) : List (List Char) := (ws.map text).map String.toList
  have hsplit {ws : List PostfixWord} (hws : ∀ w ∈ ws, w.Proper) (hne : ws ≠ []) :
      (printed ws).toList.splitOn ' ' = texts ws := by
    rw [printed, String.toList_intercalate]
    refine List.splitOn_intercalate ' ' (fun text htext hspace => ?_) (by simpa using hne)
    rw [List.map_map] at htext
    obtain ⟨w, hw, rfl⟩ := List.mem_map.1 htext
    exact (hws w hw).bare.2 _ hspace (by decide)
  have htexts : texts ws = texts ws' := by rw [← hsplit hws hne, ← hsplit hws' hne', h]
  exact List.map_injective_iff.2 (fun _ _ heq => String.toList_injective heq) htexts

/-- Only with a minus it is open how many operands there are. -/
theorem operands_unique {n n' : Nat} {kind : TokenKind} (h : kind ∈ kinds n)
    (h' : kind ∈ kinds n') (hminus : kind ≠ .minus) : n = n' := by
  have hall : ∀ n < 3, ∀ n' < 3, ∀ kind ∈ kinds n, kind ∈ kinds n' → kind = .minus ∨ n = n' := by
    decide
  exact (hall n (lt_of_mem_kinds h) n' (lt_of_mem_kinds h') kind h h').resolve_left hminus

/-- The texts of the words show the words, together with the operands of the minuses. -/
theorem unique (hws : ∀ w ∈ ws, w.Proper) (hws' : ∀ w ∈ ws', w.Proper)
    (htexts : ws.map text = ws'.map text) (hminuses : minusesOf ws = minusesOf ws') :
    ws = ws' := by
  induction ws generalizing ws' with
  | nil => exact (List.map_eq_nil_iff.1 htexts.symm).symm
  | cons w rest ih =>
    obtain ⟨⟨text, n⟩, rest', rfl, htext, hothers⟩ := List.map_eq_cons_iff.1 htexts.symm
    obtain ⟨hw, hrest⟩ := List.forall_mem_cons.1 hws
    obtain ⟨hw', hrest'⟩ := List.forall_mem_cons.1 hws'
    obtain rfl : text = w.text := htext
    have hsame : kind ⟨w.text, n⟩ = w.kind := rfl
    rw [minusesOf_cons, minusesOf_cons, hsame] at hminuses
    have hboth : w.operands = n ∧ minusesOf rest = minusesOf rest' := by
      by_cases hminus : w.kind = .minus
      · rw [if_pos hminus, if_pos hminus] at hminuses
        exact List.cons.inj hminuses
      · rw [if_neg hminus, if_neg hminus] at hminuses
        exact ⟨operands_unique hw.kind hw'.kind hminus, hminuses⟩
    obtain ⟨rfl, htail⟩ := hboth
    rw [ih hrest hrest' hothers.symm htail]

/-- An operator with two operands is a minus, or another one that always has two. -/
theorem count_minuses (hws : ∀ w ∈ ws, w.Proper) :
    ws.countP (·.operands = 2) =
      (minusesOf ws).count 2 + (ws.map kind).countP (· ∈ binaryOperators.erase .minus) := by
  have hall : ∀ n < 3, ∀ kind ∈ kinds n, (if n = 2 then 1 else 0) =
      (if kind = .minus then [n] else []).count 2 +
        if kind ∈ binaryOperators.erase .minus then 1 else 0 := by
    decide
  induction ws with
  | nil => rfl
  | cons w rest ih =>
    obtain ⟨hw, hrest⟩ := List.forall_mem_cons.1 hws
    have hone := hall w.operands (lt_of_mem_kinds hw.kind) w.kind hw.kind
    rw [minusesOf_cons, List.count_append, List.map_cons, List.countP_cons, List.countP_cons, ih hrest]
    simp only [decide_eq_true_eq]
    omega

theorem minuses_length : (minusesOf ws).length = (ws.map kind).count .minus := by
  unfold minusesOf
  rw [List.length_map, List.count_eq_countP, List.countP_map, List.countP_eq_length_filter]
  rfl

theorem mem_minuses (hws : ∀ w ∈ ws, w.Proper) : ∀ n ∈ minusesOf ws, n = 1 ∨ n = 2 := by
  have hall : ∀ n < 3, .minus ∈ kinds n → n = 1 ∨ n = 2 := by decide
  intro n hn
  obtain ⟨w, hw, rfl⟩ := List.mem_map.1 hn
  obtain ⟨hmem, hminus⟩ := List.mem_filter.1 hw
  have hkind := (hws w hmem).kind
  rw [of_decide_eq_true hminus] at hkind
  exact hall _ (lt_of_mem_kinds hkind) hkind

/-- There is one operand more than there are operators with two. -/
def Balanced (ws : List PostfixWord) : Prop :=
  ws.countP (·.operands = 0) = ws.countP (·.operands = 2) + 1

/-- As many operands show how many of the minuses are subtractions. -/
theorem count_minuses_unique (hws : ∀ w ∈ ws, w.Proper) (hws' : ∀ w ∈ ws', w.Proper)
    (hbalanced : Balanced ws) (hbalanced' : Balanced ws')
    (hkinds : ws.map kind = ws'.map kind) :
    (minusesOf ws).count 2 = (minusesOf ws').count 2 := by
  have hall : ∀ n < 3, ∀ kind ∈ kinds n, (n = 0 ↔ kind ∈ kinds 0) := by decide
  have hoperands {ws : List PostfixWord} (hws : ∀ w ∈ ws, w.Proper) :
      ws.countP (·.operands = 0) = (ws.map kind).countP (· ∈ kinds 0) := by
    rw [List.countP_map]
    refine List.countP_congr fun w hw => ?_
    have hkind := (hws w hw).kind
    have hiff := hall w.operands (lt_of_mem_kinds hkind) w.kind hkind
    simpa using hiff
  have hcount := count_minuses hws
  have hcount' := count_minuses hws'
  unfold Balanced at hbalanced hbalanced'
  rw [hoperands hws, hkinds] at hbalanced
  rw [hoperands hws'] at hbalanced'
  rw [hkinds] at hcount
  omega

/-- The texts alone show the minuses if they are all of one sort. -/
theorem minuses_unique (hws : ∀ w ∈ ws, w.Proper) (hws' : ∀ w ∈ ws', w.Proper)
    (hbalanced : Balanced ws) (hbalanced' : Balanced ws')
    (htexts : ws.map text = ws'.map text)
    (hsort : ¬ (1 ∈ minusesOf ws ∧ 2 ∈ minusesOf ws)) : minusesOf ws = minusesOf ws' := by
  have hkinds : ws.map kind = ws'.map kind := by
    have hmap (ws : List PostfixWord) :
        ws.map kind = (ws.map text).map fun text => (Token.ofText text).kind := by
      rw [List.map_map]
      rfl
    rw [hmap, hmap, htexts]
  have hcount := count_minuses_unique hws hws' hbalanced hbalanced' hkinds
  have hlength : (minusesOf ws).length = (minusesOf ws').length := by
    rw [minuses_length, minuses_length, hkinds]
  have hall := mem_minuses hws
  have hall' := mem_minuses hws'
  -- Both lists are as long and have as many twos, and the first one has no ones or no twos.
  generalize minusesOf ws = ns, minusesOf ws' = ns' at hsort hcount hlength hall hall' ⊢
  by_cases hsubtraction : 2 ∈ ns
  · have hnone : 1 ∉ ns := fun hnegation => hsort ⟨hnegation, hsubtraction⟩
    have htwo : ∀ n ∈ ns, 2 = n := fun n hn =>
      ((hall n hn).resolve_left fun hone => hnone (hone ▸ hn)).symm
    have htwo' : ∀ n ∈ ns', 2 = n :=
      List.count_eq_length.1 (by rw [← hcount, ← hlength, List.count_eq_length.2 htwo])
    rw [List.eq_replicate_of_mem fun n hn => (htwo n hn).symm,
      List.eq_replicate_of_mem fun n hn => (htwo' n hn).symm, hlength]
  · have hnone' : 2 ∉ ns' := List.count_eq_zero.1 (hcount ▸ List.count_eq_zero.2 hsubtraction)
    have hone : ∀ n ∈ ns, n = 1 := fun n hn =>
      (hall n hn).resolve_right fun htwo => hsubtraction (htwo ▸ hn)
    have hone' : ∀ n ∈ ns', n = 1 := fun n hn =>
      (hall' n hn).resolve_right fun htwo => hnone' (htwo ▸ hn)
    rw [List.eq_replicate_of_mem hone, List.eq_replicate_of_mem hone', hlength]

end Words

end PostfixWord

namespace Expr

/-- The postfix form word by word, for an arithmetical expression. -/
def postfixWords : Expr → List PostfixWord
  | .literal value => [⟨value.value.text, 0⟩]
  | .variable ref => [⟨ref.name.lexeme, 0⟩]
  | .grouping inner => inner.postfixWords
  | .unary operator right => right.postfixWords ++ [⟨operator.lexeme, 1⟩]
  | .binary left operator right => left.postfixWords ++ (right.postfixWords ++ [⟨operator.lexeme, 2⟩])
  | _ => []

namespace Arithmetic

open PostfixWord

variable {xs : List Float} {e e' : Expr}

theorem of_parts : ∀ {e : Expr}, (∀ part ∈ e.parts, part.Made Token.Written ∧ part.Arithmetical ∧
    ∀ x ∈ part.number?, x ∈ xs) → Arithmetic xs e
  | .literal value, h => by
    obtain ⟨hmade, harithmetical, hnumber⟩ := h _ (mem_parts _)
    cases value with
    | number x =>
      cases hmade with
      | literal ht hvalue => exact .number (hnumber x rfl) (ht.word.unsigned hvalue) harithmetical
    | _ => exact harithmetical.elim
  | .variable ref, h => by
    cases (h _ (mem_parts _)).1 with
    | «variable» hname => exact .variable hname
  | .grouping inner, h => .grouping (of_parts (List.forall_mem_cons.1 h).2)
  | .unary operator right, h => by
    obtain ⟨hself, hright⟩ := List.forall_mem_cons.1 h
    cases hself.1 with
    | unary ho => exact .unary ho (of_parts hright)
  | .binary left operator right, h => by
    obtain ⟨hself, hparts⟩ := List.forall_mem_cons.1 h
    obtain ⟨hleft, hright⟩ := List.forall_mem_append.1 hparts
    cases hself.1 with
    | binary _ ho => exact .binary (of_parts hleft) ho (of_parts hright)
  | .binaryError .., h | .conditional .., h | .assign .., h | .call .., h | .get .., h | .set .., h
  | .this _, h | .super .., h | .lambda _, h => (h _ (mem_parts _)).2.1.elim

theorem words_ne_nil (h : Arithmetic xs e) : e.postfixWords ≠ [] := by
  induction h with
  | number | «variable» => exact List.cons_ne_nil _ _
  | grouping _ ih => exact ih
  | unary _ _ ih => exact List.append_ne_nil_of_left_ne_nil ih _
  | binary _ _ _ ih _ => exact List.append_ne_nil_of_left_ne_nil ih _

/-- The words are those of the postfix form. -/
theorem postfixForm_eq (h : Arithmetic xs e) : e.postfixForm = .ok (printed e.postfixWords) := by
  induction h with
  | number | «variable» => rw [postfixForm, postfixWords, printed_singleton]; rfl
  | grouping _ ih => exact ih
  | @unary operator right _ h ih =>
    rw [postfixForm, ih, postfixWords, printed_append h.words_ne_nil (List.cons_ne_nil _ _),
      printed_singleton]
    rfl
  | @binary left operator right hl _ hr ihl ihr =>
    rw [postfixForm, ihl, ihr, postfixWords, ← List.append_assoc,
      printed_append (List.append_ne_nil_of_left_ne_nil hl.words_ne_nil _) (List.cons_ne_nil _ _),
      printed_append hl.words_ne_nil hr.words_ne_nil, printed_singleton]
    rfl

theorem proper (h : Arithmetic xs e) : ∀ w ∈ e.postfixWords, w.Proper := by
  induction h with
  | number _ hunsigned hlimited =>
    have hnumeral := text_numeral hunsigned hlimited
    have hkind : (Token.ofText (Value.number _).text).kind = .number :=
      congrArg Token.kind (Token.ofText_denotes (.number hnumeral))
    exact List.forall_mem_singleton.2 ⟨numeral_bare hnumeral, List.mem_cons.2 (.inl hkind)⟩
  | «variable» hname =>
    exact List.forall_mem_singleton.2 (proper_of_among (hname.mono (by decide)))
  | grouping _ ih => exact ih
  | unary ho _ ih =>
    exact List.forall_mem_append.2 ⟨ih, List.forall_mem_singleton.2 (proper_of_among ho)⟩
  | binary _ ho _ ihl ihr =>
    exact List.forall_mem_append.2 ⟨ihl, List.forall_mem_append.2
      ⟨ihr, List.forall_mem_singleton.2 (proper_of_among ho)⟩⟩

/-- The words leave the expression on the stack. -/
theorem run_words (h : Arithmetic xs e) (hxs : PrintedApart xs) (stack : List Expr) :
    e.postfixWords.foldl (run xs) stack = e.ungrouped.plain :: stack := by
  induction h generalizing stack with
  | number hx hunsigned hlimited =>
    exact congrArg (· :: stack) (ofText_number hx hxs hunsigned hlimited)
  | «variable» hname => exact congrArg (· :: stack) (ofText_name hname (by decide))
  | grouping _ ih => exact ih stack
  | @unary operator right ho _ ih =>
    rw [postfixWords, List.foldl_append, ih]
    show Expr.unary (Token.ofText operator.lexeme) right.ungrouped.plain :: stack =
      .unary operator.unlined right.ungrouped.plain :: stack
    rw [Token.ofText_lexeme ho.word]
  | @binary left operator right _ ho _ ihl ihr =>
    rw [postfixWords, List.foldl_append, ihl, List.foldl_append, ihr]
    show Expr.binary left.ungrouped.plain (Token.ofText operator.lexeme) right.ungrouped.plain ::
        stack = .binary left.ungrouped.plain operator.unlined right.ungrouped.plain :: stack
    rw [Token.ofText_lexeme ho.word]

theorem minuses_eq (h : Arithmetic xs e) : e.minuses = minusesOf e.postfixWords := by
  have hoperand {w : PostfixWord} (hw : w.Proper) (hn : w.operands = 0) : minusesOf [w] = [] := by
    have hkind : w.kind ∈ kinds 0 := hn ▸ hw.kind
    rw [minusesOf_singleton, if_neg fun hminus => absurd (hminus ▸ hkind) (by decide)]
  induction h with
  | number hx hunsigned hlimited =>
    have hnumber : Arithmetic xs (.literal (.number _)) := .number hx hunsigned hlimited
    exact (hoperand (hnumber.proper _ List.mem_cons_self) rfl).symm
  | «variable» hname =>
    have hvariable : Arithmetic xs (.variable _) := .variable hname
    exact (hoperand (hvariable.proper _ List.mem_cons_self) rfl).symm
  | grouping _ ih => exact ih
  | unary ho _ ih =>
    rw [minuses, postfixWords, minusesOf_append, minusesOf_singleton, kind_lexeme ho.word, ih]
  | binary _ ho _ ihl ihr =>
    rw [minuses, postfixWords, minusesOf_append, minusesOf_append, minusesOf_singleton,
      kind_lexeme ho.word, ihl, ihr]

/-- Every operand but one is the second operand of a binary operator. -/
theorem balanced (h : Arithmetic xs e) : PostfixWord.Balanced e.postfixWords := by
  unfold PostfixWord.Balanced
  induction h with
  | number | «variable» => rfl
  | grouping _ ih => exact ih
  | unary _ _ ih => simpa [postfixWords] using ih
  | binary _ _ _ ihl ihr =>
    simp only [postfixWords, List.countP_append, ihl, ihr, List.countP_singleton]
    simp
    omega

/-- Groupings and lines leave no trace. -/
theorem words_plain (h : Arithmetic xs e) : e.ungrouped.plain.postfixWords = e.postfixWords := by
  induction h with
  | number | «variable» => rfl
  | grouping _ ih => exact ih
  | unary _ _ ih => exact congrArg (· ++ _) ih
  | binary _ _ _ ihl ihr => exact congrArg₂ (· ++ ·) ihl (congrArg (· ++ _) ihr)

/-- The words show all but the groupings and the lines. -/
theorem plain_iff (h : Arithmetic xs e) (h' : Arithmetic xs e') (hxs : PrintedApart xs) :
    e.ungrouped.plain = e'.ungrouped.plain ↔ e.postfixWords = e'.postfixWords := by
  constructor
  · intro htree
    rw [← h.words_plain, htree, h'.words_plain]
  · intro hwords
    have hrun := h.run_words hxs []
    rw [hwords, h'.run_words hxs []] at hrun
    exact (List.cons.inj hrun).1.symm

end Arithmetic

end Expr

open PostfixWord in
/-- The postfix form of an arithmetical expression, together with the sorts of its minuses, shows the
expression without its groupings, if different numbers are printed differently. It does so by itself if
not both sorts of minuses stand in one of the expressions. -/
theorem postfixForm_shows {source source' : String} {e e' : Expr} (he : e.ReadFrom source)
    (he' : e'.ReadFrom source') (harithmetical : ∀ part ∈ e.parts ++ e'.parts, part.Arithmetical)
    (hnumbers : PrintedApart (e.numbers ++ e'.numbers)) :
    ∃ text text', e.postfixForm = .ok text ∧ e'.postfixForm = .ok text' ∧
      (text = text' ∧ e.minuses = e'.minuses ↔ e.ungrouped.plain = e'.ungrouped.plain) ∧
      (¬ (1 ∈ e.minuses ∧ 2 ∈ e.minuses) ∨ ¬ (1 ∈ e'.minuses ∧ 2 ∈ e'.minuses) →
        (text = text' ↔ e.ungrouped.plain = e'.ungrouped.plain)) := by
  obtain ⟨harithmetical, harithmetical'⟩ := List.forall_mem_append.1 harithmetical
  have h : e.Arithmetic (e.numbers ++ e'.numbers) := .of_parts fun part hpart =>
    ⟨he.madeOf part hpart, harithmetical part hpart, fun _ hx =>
      List.mem_append_left _ (Expr.mem_numbers hpart hx)⟩
  have h' : e'.Arithmetic (e.numbers ++ e'.numbers) := .of_parts fun part hpart =>
    ⟨he'.madeOf part hpart, harithmetical' part hpart, fun _ hx =>
      List.mem_append_right _ (Expr.mem_numbers hpart hx)⟩
  have htexts (hprinted : printed e.postfixWords = printed e'.postfixWords) :
      e.postfixWords.map text = e'.postfixWords.map text :=
    texts_unique h.proper h'.proper h.words_ne_nil h'.words_ne_nil hprinted
  refine ⟨_, _, h.postfixForm_eq, h'.postfixForm_eq, ?_⟩
  rw [h.minuses_eq, h'.minuses_eq, h.plain_iff h' hnumbers]
  constructor
  · refine ⟨fun ⟨hprinted, hminuses⟩ => ?_, fun hwords => by rw [hwords]; exact ⟨rfl, rfl⟩⟩
    exact PostfixWord.unique h.proper h'.proper (htexts hprinted) hminuses
  · refine fun hsort => ⟨fun hprinted => ?_, fun hwords => by rw [hwords]⟩
    have hminuses : minusesOf e.postfixWords = minusesOf e'.postfixWords := by
      rcases hsort with hsort | hsort
      · exact minuses_unique h.proper h'.proper h.balanced h'.balanced (htexts hprinted) hsort
      · exact (minuses_unique h'.proper h.proper h'.balanced h.balanced (htexts hprinted).symm
          hsort).symm
    exact PostfixWord.unique h.proper h'.proper (htexts hprinted) hminuses

/-- Where both sorts of minuses stand, the text does not show which is which. -/
theorem postfixForm_hides_sorts :
    ∃ e e' : Expr, e.ReadFrom "a - -b" ∧ e'.ReadFrom "-(a - b)" ∧
      (∀ part ∈ e.parts ++ e'.parts, part.Arithmetical) ∧ PrintedApart (e.numbers ++ e'.numbers) ∧
      e.postfixForm = .ok "a b - -" ∧ e'.postfixForm = .ok "a b - -" ∧
      e.ungrouped.plain ≠ e'.ungrouped.plain := by
  let a : Expr := .variable ⟨0, .synthetic .identifier "a" 1⟩
  let b : Expr := .variable ⟨1, .synthetic .identifier "b" 1⟩
  let minus : Token := .synthetic .minus "-" 1
  let e : Expr := .binary a minus (.unary minus b)
  let e' : Expr := .unary minus (.grouping (.binary a minus b))
  have hprogram : (parse (tokensOf (scan "a - -b")) true 0).program = .expression e := by cbv
  have hprogram' : (parse (tokensOf (scan "-(a - b)")) true 0).program = .expression e' := by cbv
  refine ⟨e, e', ⟨true, 0, ?_⟩, ⟨true, 0, ?_⟩, ?_, ?_, rfl, rfl, ?_⟩
  · rw [hprogram]
    exact Expr.mem_parts _
  · rw [hprogram']
    exact Expr.mem_parts _
  · simp [e, e', a, b, Expr.parts, Expr.Arithmetical]
  · exact List.forall_mem_nil _
  · intro htree
    cases htree

/-- Groupings and the spelling of a number leave no trace. There is one minus, so that the text shows all
else. -/
theorem postfixForm_shows_grouped :
    ∃ (e e' : Expr) (text : String), e.ReadFrom "! 1.50 - a" ∧ e'.ReadFrom "( ! ( 1.5 ) - a )" ∧
      (∀ part ∈ e.parts ++ e'.parts, part.Arithmetical) ∧ PrintedApart (e.numbers ++ e'.numbers) ∧
      e.postfixForm = .ok text ∧ e'.postfixForm = .ok text ∧ ¬ (1 ∈ e.minuses ∧ 2 ∈ e.minuses) ∧
      e.ungrouped.plain = e'.ungrouped.plain := by
  let a : Expr := .variable ⟨0, .synthetic .identifier "a" 1⟩
  let minus : Token := .synthetic .minus "-" 1
  let bang : Token := .synthetic .bang "!" 1
  let e (x : Float) : Expr := .binary (.unary bang (.literal (.number x))) minus a
  let e' (x : Float) : Expr :=
    .grouping (.binary (.unary bang (.grouping (.literal (.number x)))) minus a)
  have hread : (e (decimalValue "1.50".toList)).ReadFrom "! 1.50 - a" := by
    let ts (x : Float) : List Token :=
      [.fixed .bang "!", ⟨.number, "1.50", some (.number x), 0⟩, .fixed .minus "-",
        .fixed .identifier "a"]
    have hwritten : ∀ t ∈ ts (decimalValue "1.50".toList), t.Written := by
      simp only [ts, List.forall_mem_cons]
      exact ⟨.operator (by decide),
        .number (numeral_point ['1'] ['5', '0'] (by decide) (by decide)),
        .operator (by decide), Token.written_name (by decide) (by decide), List.forall_mem_nil _⟩
    have hsource : spaced (ts (decimalValue "1.50".toList)) = "! 1.50 - a" := by decide +kernel
    refine .of_spaced hsource hwritten true 0 ?_
    generalize decimalValue "1.50".toList = x
    have hprogram : (parse (Token.relined 1 (ts x ++ [.fixed .eof ""])) true 0).program =
        .expression (e x) := by cbv
    rw [hprogram]
    exact Expr.mem_parts _
  have hread' : (e' (decimalValue "1.5".toList)).ReadFrom "( ! ( 1.5 ) - a )" := by
    let ts (x : Float) : List Token :=
      [.fixed .leftParen "(", .fixed .bang "!", .fixed .leftParen "(",
        ⟨.number, "1.5", some (.number x), 0⟩, .fixed .rightParen ")", .fixed .minus "-",
        .fixed .identifier "a", .fixed .rightParen ")"]
    have hwritten : ∀ t ∈ ts (decimalValue "1.5".toList), t.Written := by
      simp only [ts, List.forall_mem_cons]
      exact ⟨.operator (by decide), .operator (by decide), .operator (by decide),
        .number (numeral_point ['1'] ['5'] (by decide) (by decide)),
        .operator (by decide), .operator (by decide), Token.written_name (by decide) (by decide),
        .operator (by decide), List.forall_mem_nil _⟩
    have hsource : spaced (ts (decimalValue "1.5".toList)) = "( ! ( 1.5 ) - a )" := by decide +kernel
    refine .of_spaced hsource hwritten true 0 ?_
    generalize decimalValue "1.5".toList = x
    have hprogram : (parse (Token.relined 1 (ts x ++ [.fixed .eof ""])) true 0).program =
        .expression (e' x) := by cbv
    rw [hprogram]
    exact Expr.mem_parts _
  have hsame : decimalValue "1.50".toList = decimalValue "1.5".toList := by decide +kernel
  have hlimited : Limited (decimalValue "1.5".toList) := by
    unfold Limited
    decide +kernel
  rw [hsame] at hread
  generalize decimalValue "1.5".toList = x at hread hread' hlimited
  have harithmetical : ∀ part ∈ (e x).parts ++ (e' x).parts, part.Arithmetical := by
    simp [e, e', a, Expr.parts, Expr.Arithmetical, hlimited]
  have hapart : PrintedApart ((e x).numbers ++ (e' x).numbers) := by
    have hnumbers : (e x).numbers ++ (e' x).numbers = [x, x] := rfl
    exact .of_eq (x := x) (by simp [hnumbers])
  have hsort : ¬ (1 ∈ (e x).minuses ∧ 2 ∈ (e x).minuses) := by
    have hminuses : (e x).minuses = [2] := rfl
    rw [hminuses]
    decide
  obtain ⟨text, text', htext, htext', -, hshows⟩ :=
    postfixForm_shows hread hread' harithmetical hapart
  obtain rfl : text = text' := Except.ok.inj (htext.symm.trans htext')
  exact ⟨e x, e' x, text, hread, hread', harithmetical, hapart, htext, htext', hsort,
    (hshows (.inl hsort)).1 rfl⟩

end Lox
