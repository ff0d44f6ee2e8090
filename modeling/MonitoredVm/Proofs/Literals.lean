import Mathlib
import MonitoredVm.Proofs.Composition

/-!
# Printed values as source text

The printed form of a value made of constants and containers is an expression of the script language that evaluates to
the value. The printed form is followed through the scanner (`spells`), its tokens spell a literal expression
(`literal_atom`), and that expression evaluates to the value (`eval_literal`).

Main statements: `repr_roundtrip` and, for bytes of every kind, `bytes_literal_reads_back_iff`.
-/

namespace MonitoredVm

open Grammar List

mutual

/-- Made of constants other than floats and the least integer, of bytes that print as themselves, and of containers, the
dicts with pairwise distinct keys. -/
def Value.Spellable : Value → Prop
  | .none | .bool _ | .str _ => True
  | .int i => i ≠ Int64.minValue
  | .bytes b => ∀ x ∈ b, 32 ≤ x ∧ x ≤ 126 ∧ x ≠ 39 ∧ x ≠ 92
  | .tuple items => Value.SpellableAll items
  | .list items => Value.SpellableAll items
  | .dict items => Value.SpellablePairs items ∧ (items.map (·.1)).Nodup
  | _ => False

def Value.SpellableAll : List Value → Prop
  | [] => True
  | v :: vs => v.Spellable ∧ Value.SpellableAll vs

def Value.SpellablePairs : List (Value × Value) → Prop
  | [] => True
  | (k, v) :: ps => k.Spellable ∧ v.Spellable ∧ Value.SpellablePairs ps

end

mutual

/-- The tokens of the printed form. -/
def Value.toks : Value → List Tok
  | .none => [.name "None"]
  | .bool true => [.name "True"]
  | .bool false => [.name "False"]
  | .int i => if i.toInt < 0 then [.minus, .int (-i)] else [.int i]
  | .str s => [.str s]
  | .bytes b => [.bytes b]
  | .tuple [v] => .lparen :: v.toks ++ [.comma, .rparen]
  | .tuple items => .lparen :: Value.toksItems items ++ [.rparen]
  | .list items => .lbracket :: Value.toksItems items ++ [.rbracket]
  | .dict items => .lbrace :: Value.toksPairs items ++ [.rbrace]
  | _ => []

def Value.toksItems : List Value → List Tok
  | [] => []
  | v :: vs => v.toks ++ Value.toksRest vs

def Value.toksRest : List Value → List Tok
  | [] => []
  | v :: vs => .comma :: v.toks ++ Value.toksRest vs

def Value.toksPairs : List (Value × Value) → List Tok
  | [] => []
  | (k, v) :: ps => k.toks ++ .colon :: v.toks ++ Value.toksPairsRest ps

def Value.toksPairsRest : List (Value × Value) → List Tok
  | [] => []
  | (k, v) :: ps => .comma :: k.toks ++ .colon :: v.toks ++ Value.toksPairsRest ps

end

mutual

/-- The expression that denotes the value. -/
def Value.literal : Value → Expr
  | .bool b => .bool b
  | .int i => .int i
  | .str s => .str s
  | .bytes b => .bytes b
  | .tuple items => .tuple (Value.literals items)
  | .list items => .list (Value.literals items)
  | .dict items => .dict (Value.literalPairs items)
  | _ => .none

def Value.literals : List Value → List Expr
  | [] => []
  | v :: vs => v.literal :: Value.literals vs

def Value.literalPairs : List (Value × Value) → List (Expr × Expr)
  | [] => []
  | (k, v) :: ps => (k.literal, v.literal) :: Value.literalPairs ps

end

/-! ## The tokens spell the literal -/

theorem toksRest_cons (v vs) : Value.toksRest (v :: vs) = .comma :: Value.toksItems (v :: vs) := rfl

theorem toksPairsRest_cons (p : Value × Value) (ps) :
    Value.toksPairsRest (p :: ps) = .comma :: Value.toksPairs (p :: ps) := rfl

theorem Grammar.Atom.expression (h : Atom e ts) : Expression e ts := by
  have spelled := Expression.intro h .done
  rwa [append_nil] at spelled

mutual

theorem literal_atom : (v : Value) → v.Spellable → Atom v.literal v.toks
  | .none, _ => .none
  | .bool true, _ => .true
  | .bool false, _ => .false
  | .int i, _ => by
    rw [Value.toks, Value.literal]
    split
    · have spelled := Atom.negInt (-i)
      rwa [Int64.neg_neg] at spelled
    · exact .int i
  | .str s, _ => .str s
  | .bytes b, _ => .bytes b
  | .tuple [], _ => .unit
  | .tuple [v], fine => .tuple (literal_atom v fine.1).expression .close
  | .tuple (v :: u :: vs), fine => by
    have spelled := Atom.tuple (literal_atom v fine.1).expression (literal_items (u :: vs) fine.2 .rparen)
    rw [Value.toks, Value.toksItems, toksRest_cons]
    · show Atom (.tuple (v.literal :: Value.literals (u :: vs))) _
      simpa using spelled
    · simp
  | .list items, fine => .list (literal_items items fine .rbracket)
  | .dict items, fine => .dict (literal_pairs items fine.1)

theorem literal_items : (vs : List Value) → Value.SpellableAll vs → (close : Tok) →
    Items close (Value.literals vs) (Value.toksItems vs ++ [close])
  | [], _, close => .close
  | [v], fine, close => by
    rw [Value.toksItems, Value.toksRest, append_nil]
    exact .last (literal_atom v fine.1).expression
  | v :: u :: vs, fine, close => by
    have spelled := Items.more (literal_atom v fine.1).expression (literal_items (u :: vs) fine.2 close)
    rw [Value.toksItems, toksRest_cons]
    show Items close (v.literal :: Value.literals (u :: vs)) _
    simpa using spelled

theorem literal_pairs : (ps : List (Value × Value)) → Value.SpellablePairs ps →
    Pairs (Value.literalPairs ps) (Value.toksPairs ps ++ [.rbrace])
  | [], _ => .close
  | [(k, v)], fine => by
    have spelled := Pairs.last (literal_atom k fine.1).expression (literal_atom v fine.2.1).expression
    rw [Value.toksPairs, Value.toksPairsRest, append_nil]
    exact spelled
  | (k, v) :: p :: ps, fine => by
    have spelled := Pairs.more (literal_atom k fine.1).expression (literal_atom v fine.2.1).expression
      (literal_pairs (p :: ps) fine.2.2)
    rw [Value.toksPairs, toksPairsRest_cons]
    show Pairs ((k.literal, v.literal) :: Value.literalPairs (p :: ps)) _
    simpa using spelled

end

/-! ## The literal evaluates to the value -/

mutual

theorem same_iff_eq : (v : Value) → v.Spellable → (w : Value) → (v.same w = true ↔ v = w)
  | .none, _, w => by cases w <;> simp [Value.same]
  | .bool _, _, w => by cases w <;> simp [Value.same]
  | .int _, _, w => by cases w <;> simp [Value.same]
  | .str _, _, w => by cases w <;> simp [Value.same]
  | .bytes _, _, w => by cases w <;> simp [Value.same]
  | .tuple items, fine, w => by
    have inner := sameAll_iff_eq items fine
    cases w <;> simp [Value.same, inner]
  | .list items, fine, w => by
    have inner := sameAll_iff_eq items fine
    cases w <;> simp [Value.same, inner]
  | .dict items, fine, w => by
    have inner := samePairs_iff_eq items fine.1
    cases w <;> simp [Value.same, inner]

theorem sameAll_iff_eq : (vs : List Value) → Value.SpellableAll vs → (ws : List Value) →
    (Value.sameAll vs ws = true ↔ vs = ws)
  | [], _, ws => by cases ws <;> simp [Value.sameAll]
  | v :: vs, fine, ws => by
    have first := same_iff_eq v fine.1
    have others := sameAll_iff_eq vs fine.2
    cases ws <;> simp [Value.sameAll, first, others]

theorem samePairs_iff_eq : (ps : List (Value × Value)) → Value.SpellablePairs ps → (qs : List (Value × Value)) →
    (Value.samePairs ps qs = true ↔ ps = qs)
  | [], _, qs => by cases qs <;> simp [Value.samePairs]
  | (k, v) :: ps, fine, qs => by
    have key := same_iff_eq k fine.1
    have value := same_iff_eq v fine.2.1
    have others := samePairs_iff_eq ps fine.2.2
    cases qs with
    | nil => simp [Value.samePairs]
    | cons q qs => simp [Value.samePairs, key, value, others, Prod.ext_iff]

end

theorem putPair_new {key value read} (new : ∀ p ∈ read, p.1.same key = false) :
    putPair key value read = read ++ [(key, value)] := by
  induction read with
  | nil => rfl
  | cons p read ih =>
    rw [putPair, if_neg (by simp [new p mem_cons_self]), ih fun q inside => new q (mem_cons_of_mem p inside)]
    rfl

section Evaluation
variable {σ : Type} (h : Natives σ) (call : Caller σ) (scope : Scope) (r : Run σ)

mutual

theorem eval_literal : (v : Value) → v.Spellable → Expr.eval h call scope v.literal r = (.ok v, r)
  | .none, _ | .bool _, _ | .int _, _ | .str _, _ | .bytes _, _ => rfl
  | .tuple items, fine => bind_of_ok (eval_literals items fine)
  | .list items, fine => bind_of_ok (eval_literals items fine)
  | .dict items, fine => bind_of_ok (eval_literalPairs items fine.1 [] fine.2 (by simp))

theorem eval_literals : (vs : List Value) → Value.SpellableAll vs →
    Expr.evalAll h call scope (Value.literals vs) r = (.ok vs, r)
  | [], _ => rfl
  | v :: vs, fine => by
    have first := eval_literal v fine.1
    have others := eval_literals vs fine.2
    exact (bind_of_ok first).trans (bind_of_ok others)

theorem eval_literalPairs : (ps : List (Value × Value)) → Value.SpellablePairs ps → (read : List (Value × Value)) →
    (ps.map (·.1)).Nodup → (∀ q ∈ read, ∀ p ∈ ps, q.1.same p.1 = false) →
    Expr.evalPairs h call scope read (Value.literalPairs ps) r = (.ok (read ++ ps), r)
  | [], _, read, _, _ => by rw [append_nil]; rfl
  | (k, v) :: ps, fine, read, distinct, new => by
    have key := eval_literal k fine.1
    have value := eval_literal v fine.2.1
    obtain ⟨fresh, distinct⟩ := nodup_cons.1 distinct
    have added : putPair k v read = read ++ [(k, v)] :=
      putPair_new fun q inside => new q inside (k, v) mem_cons_self
    have apart : ∀ q ∈ read ++ [(k, v)], ∀ p ∈ ps, q.1.same p.1 = false := by
      intro q inside p later
      obtain before | last := mem_append.1 inside
      · exact new q before p (mem_cons_of_mem _ later)
      · obtain rfl := mem_singleton.1 last
        rw [Bool.eq_false_iff]
        intro same
        exact fresh (mem_map.2 ⟨p, later, ((same_iff_eq k fine.1 p.1).1 same).symm⟩)
    have others := eval_literalPairs ps fine.2.2 (read ++ [(k, v)]) distinct apart
    rw [append_assoc] at others
    rw [← added] at others
    exact (bind_of_ok key).trans ((bind_of_ok value).trans others)

end
end Evaluation

/-! ## Scanning the printed form -/

namespace Lexer

/-- The state after the tokens `ts` on the current line. -/
def emit (s : Lexer) (ts : List Tok) : Lexer :=
  { s with mode := .between, depth := ts.foldl nest s.depth, tokens := (ts.map (⟨·, s.line⟩)).reverse ++ s.tokens }

/-- The characters that stand after a printed value. -/
def delimiters : List Char := [',', ':', ')', ']', '\x7d']

/-- What is left to do in `s` to be in `t` is to end the token in progress, and any delimiter ends it. -/
structure Pending (s t : Lexer) : Prop where
  settle : s.settle = .ok t
  step : ∀ c ∈ delimiters, s.step c = t.start c

/-- Between tokens the text is scanned into the tokens `ts` of a line, the last of them possibly in progress. -/
structure Spells (text : List Char) (ts : List Tok) : Prop where
  inner : ∀ tok ∈ ts, tok ≠ .newline ∧ tok ≠ .eof
  scan : ∀ s : Lexer, s.mode = .between → ∃ t, s.run text = .ok t ∧ t.Pending (s.emit ts)

variable {s t : Lexer}

@[simp]
theorem emit_emit (s : Lexer) (ts us) : (s.emit ts).emit us = s.emit (ts ++ us) := by
  simp [emit]

theorem emit_nil (rest : s.mode = .between) : s.emit [] = s := by
  obtain ⟨mode, line, depth, tokens⟩ := s
  obtain rfl : mode = .between := rest
  rfl

theorem pending_self (rest : s.mode = .between) : s.Pending s := by
  obtain ⟨mode, line, depth, tokens⟩ := s
  obtain rfl : mode = .between := rest
  exact ⟨rfl, fun _ _ => rfl⟩

theorem run_cons (s : Lexer) (c text) : s.run (c :: text) = s.step c >>= fun t => t.run text :=
  foldlM_cons

theorem step_between (rest : s.mode = .between) (c) : s.step c = s.start c := by
  unfold step
  rw [rest]

theorem run_of_step (next : s.step c = .ok t) : s.run (c :: text) = t.run text := by
  rw [run_cons, next]
  rfl

theorem run_of_run (first : s.run a = .ok t) : s.run (a ++ b) = t.run b := by
  rw [run_append, first]
  rfl

theorem start_blank (s : Lexer) (ts) : (s.emit ts).start ' ' = .ok (s.emit ts) := rfl

theorem start_mark (mark : (c, tok) ∈ marks) (s : Lexer) : s.start c = .ok (s.emit [tok]) := by
  simp only [marks, mem_cons, Prod.mk.injEq, not_mem_nil, or_false] at mark
  rcases mark with ⟨rfl, rfl⟩ | ⟨rfl, rfl⟩ | ⟨rfl, rfl⟩ | ⟨rfl, rfl⟩ | ⟨rfl, rfl⟩ | ⟨rfl, rfl⟩ | ⟨rfl, rfl⟩ | ⟨rfl, rfl⟩ |
    ⟨rfl, rfl⟩ | ⟨rfl, rfl⟩ | ⟨rfl, rfl⟩ <;> rfl

theorem Spells.nil : Spells [] [] where
  inner := by simp
  scan s rest := ⟨s, rfl, (emit_nil rest).symm ▸ pending_self rest⟩

theorem Spells.open {text ts c tok} (mark : (c, tok) ∈ marks) (second : Spells text ts) :
    Spells (c :: text) (tok :: ts) where
  inner := forall_mem_cons.2 ⟨mark_inner _ mark, second.inner⟩
  scan s rest := by
    obtain ⟨t, ran, pending⟩ := second.scan (s.emit [tok]) rfl
    refine ⟨t, ?_, ?_⟩
    · rw [run_of_step ((step_between rest c).trans (start_mark mark s)), ran]
    · simpa using pending

theorem Spells.delimit {text more ts us c tok} (first : Spells text ts) (delimiter : c ∈ delimiters)
    (mark : (c, tok) ∈ marks) (second : Spells more us) : Spells (text ++ c :: more) (ts ++ tok :: us) where
  inner := forall_mem_append.2 ⟨first.inner, forall_mem_cons.2 ⟨mark_inner _ mark, second.inner⟩⟩
  scan s rest := by
    obtain ⟨t, ran, pending⟩ := first.scan s rest
    obtain ⟨u, ran', pending'⟩ := second.scan ((s.emit ts).emit [tok]) rfl
    refine ⟨u, ?_, ?_⟩
    · rw [run_of_run ran, run_of_step ((pending.step c delimiter).trans (start_mark mark _)), ran']
    · simpa using pending'

theorem Spells.blank {text ts} (second : Spells text ts) : Spells (' ' :: text) ts where
  inner := second.inner
  scan s rest := by
    have skipped : s.step ' ' = .ok s := by
      rw [step_between rest, ← emit_nil rest, start_blank]
    rw [run_of_step skipped]
    exact second.scan s rest

/-! ### Constants -/

theorem delimiter_ends : ∀ c ∈ delimiters, Text.continuesName c = false ∧ c.isDigit = false ∧ c ≠ '_' ∧ c ≠ '.' := by
  rw [delimiters, forall_mem_cons, forall_mem_cons, forall_mem_cons, forall_mem_cons,
    forall_mem_singleton]
  decide

theorem pending_name (s : Lexer) (read : List Char) :
    Pending { s with mode := .name read } (s.emit [.name (String.ofList read.reverse)]) := by
  refine ⟨rfl, fun c delimiter => ?_⟩
  unfold step
  dsimp only
  rw [if_neg (by simp [delimiter_ends c delimiter])]
  rfl

theorem run_name (s : Lexer) (read : List Char) (letters : ∀ c ∈ text, Text.continuesName c = true) :
    run { s with mode := .name read } text = .ok { s with mode := .name (text.reverse ++ read) } := by
  induction text generalizing read with
  | nil => rfl
  | cons c text ih =>
    have next : step { s with mode := .name read } c = .ok { s with mode := .name (c :: read) } :=
      if_pos (letters c mem_cons_self)
    rw [run_of_step next, ih _ fun d inside => letters d (mem_cons_of_mem c inside)]
    simp

theorem Spells.name {c text} (first : ∀ s : Lexer, s.start c = .ok { s with mode := .name [c] })
    (letters : text.all Text.continuesName = true) : Spells (c :: text) [.name (String.ofList (c :: text))] := by
  refine ⟨by simp, fun s rest => ?_⟩
  refine ⟨{ s with mode := .name (text.reverse ++ [c]) }, ?_, ?_⟩
  · rw [run_of_step ((step_between rest c).trans (first s)), run_name s [c] (all_eq_true.1 letters)]
  · have pending := pending_name s (text.reverse ++ [c])
    rwa [reverse_append, reverse_reverse] at pending

theorem start_digit (digit : c.isDigit = true) (s : Lexer) : s.start c = .ok { s with mode := .number [c] false } := by
  have other : ∀ d : Char, d.isDigit = false → c ≠ d := by
    rintro d letter rfl
    rw [letter] at digit
    cases digit
  unfold start isQuote
  simp [other, digit, Char.reduceIsDigit]

theorem run_digits (s : Lexer) (read : List Char) (digits : ∀ c ∈ text, c.isDigit = true) :
    run { s with mode := .number read false } text = .ok { s with mode := .number (text.reverse ++ read) false } := by
  induction text generalizing read with
  | nil => rfl
  | cons c text ih =>
    have next : step { s with mode := .number read false } c = .ok { s with mode := .number (c :: read) false } :=
      if_pos (digits c mem_cons_self)
    rw [run_of_step next, ih _ fun d inside => digits d (mem_cons_of_mem c inside)]
    simp

theorem decimalValue_toDigits (n) : decimalValue (Nat.toDigits 10 n) = n := by
  have value := @Nat.ofDigitChars_ten_toDigits n
  rwa [Nat.ofDigitChars_eq_foldl] at value

theorem pending_number (s : Lexer) (fits : n < 0x8000000000000000) :
    Pending { s with mode := .number (Nat.toDigits 10 n).reverse false } (s.emit [.int (Int64.ofNat n)]) := by
  have ended : endNumber { s with mode := .number (Nat.toDigits 10 n).reverse false } (Nat.toDigits 10 n).reverse false =
      .ok (s.emit [.int (Int64.ofNat n)]) := by
    unfold endNumber
    dsimp only
    rw [reverse_reverse, decimalValue_toDigits, if_neg Bool.false_ne_true]
    exact if_pos fits
  refine ⟨ended, fun c delimiter => ?_⟩
  obtain ⟨-, digit, underscore, point⟩ := delimiter_ends c delimiter
  unfold step
  dsimp only
  rw [if_neg (by simp [digit]), if_neg underscore, if_neg point, ended]
  rfl

theorem Spells.number (fits : n < 0x8000000000000000) : Spells (Nat.toDigits 10 n) [.int (Int64.ofNat n)] := by
  refine ⟨by simp, fun s rest => ?_⟩
  have digits : ∀ c ∈ Nat.toDigits 10 n, c.isDigit = true :=
    fun c inside => Nat.isDigit_of_mem_toDigits (by decide) (by decide) inside
  refine ⟨_, ?_, pending_number s fits⟩
  obtain ⟨c, text, same⟩ := exists_cons_of_ne_nil (@Nat.toDigits_ne_nil n 10)
  rw [same] at digits ⊢
  rw [run_of_step ((step_between rest c).trans (start_digit (digits c mem_cons_self) s)),
    run_digits s [c] fun d inside => digits d (mem_cons_of_mem c inside), reverse_cons]

theorem run_quotedChar (s : Lexer) (read : List Char) (c : Char) :
    run { s with mode := .text false '\'' read } (Text.quotedChar c) =
      .ok { s with mode := .text false '\'' (c :: read) } := by
  unfold Text.quotedChar
  split
  · next quote =>
    subst quote
    rfl
  split
  · next backslash =>
    subst backslash
    rfl
  split
  · next newline =>
    subst newline
    rfl
  · next quote backslash newline =>
    have next : step { s with mode := .text false '\'' read } c = .ok { s with mode := .text false '\'' (c :: read) } := by
      unfold step
      dsimp only
      rw [if_neg newline, if_neg quote, if_neg backslash]
    rw [run_of_step next]
    rfl

theorem run_quoted (s : Lexer) (read text : List Char) :
    run { s with mode := .text false '\'' read } (text.flatMap Text.quotedChar) =
      .ok { s with mode := .text false '\'' (text.reverse ++ read) } := by
  induction text generalizing read with
  | nil => rfl
  | cons c text ih =>
    rw [flatMap_cons, run_of_run (run_quotedChar s read c), ih]
    simp

theorem Spells.text (text : String) : Spells (Text.quoted text.toList) [.str text] := by
  refine ⟨by simp, fun s rest => ?_⟩
  refine ⟨s.emit [.str text], ?_, pending_self rfl⟩
  have opened : s.step '\'' = .ok { s with mode := .text false '\'' [] } := step_between rest _
  have ended : step { s with mode := .text false '\'' (text.toList.reverse ++ []) } '\'' = .ok (s.emit [.str text]) := by
    have closed : step { s with mode := .text false '\'' (text.toList.reverse ++ []) } '\'' =
        .ok (s.push (.str (String.ofList (text.toList.reverse ++ []).reverse))) := rfl
    rw [closed, append_nil, reverse_reverse, String.ofList_toList]
    rfl
  unfold Text.quoted
  rw [cons_append, run_of_step opened, run_of_run (run_quoted s [] text.toList), run_of_step ended]
  rfl

theorem showsPlain_iff : Text.showsPlain b = true ↔ 32 ≤ b ∧ b ≤ 126 ∧ b ≠ 39 ∧ b ≠ 92 := by
  simp [Text.showsPlain, and_assoc]

theorem toNat_ofNat_byte (b : UInt8) : (Char.ofNat b.toNat).toNat = b.toNat := by
  have small := b.toNat_lt
  have valid : b.toNat.isValidChar := .inl (by omega)
  unfold Char.ofNat
  rw [dif_pos valid]
  exact Char.toNat_val

theorem plain_byte (plain : Text.showsPlain b = true) :
    Char.ofNat b.toNat ≠ '\n' ∧ Char.ofNat b.toNat ≠ '\'' ∧ Char.ofNat b.toNat ≠ '\\' := by
  obtain ⟨low, -, quote, backslash⟩ := showsPlain_iff.1 plain
  have number := toNat_ofNat_byte b
  refine ⟨?_, ?_, ?_⟩
  · intro same
    rw [same] at number
    have low : 32 ≤ b.toNat := low
    have ten : '\n'.toNat = 10 := rfl
    omega
  · intro same
    rw [same] at number
    exact quote (UInt8.toNat_inj.1 number.symm)
  · intro same
    rw [same] at number
    exact backslash (UInt8.toNat_inj.1 number.symm)

theorem hexDigit_plain : ∀ n < 16, Nat.digitChar n ≠ '\n' ∧ Nat.digitChar n ≠ '\'' ∧ Nat.digitChar n ≠ '\\' ∧
    (Nat.digitChar n).toNat < 128 := by decide

theorem step_text (s : Lexer) (isBytes : Bool) (read : List Char) (newline : c ≠ '\n') (quote : c ≠ '\'')
    (backslash : c ≠ '\\') :
    step { s with mode := .text isBytes '\'' read } c = .ok { s with mode := .text isBytes '\'' (c :: read) } := by
  unfold step
  dsimp only
  rw [if_neg newline, if_neg quote, if_neg backslash]

/-- The characters that stand for a byte are read as themselves: an escape that the scanner does not know keeps its
backslash. -/
theorem run_quotedByte (s : Lexer) (read : List Char) (b : UInt8) :
    run { s with mode := .text true '\'' read } (Text.quotedByte b) =
      .ok { s with mode := .text true '\'' ((Text.quotedByte b).reverse ++ read) } := by
  unfold Text.quotedByte
  split
  · next plain =>
    obtain ⟨newline, quote, backslash⟩ := plain_byte plain
    rw [run_of_step (step_text s true read newline quote backslash)]
    rfl
  · have small := b.toNat_lt
    obtain ⟨newline, quote, backslash, -⟩ := hexDigit_plain (b.toNat / 16) (by omega)
    obtain ⟨newline', quote', backslash', -⟩ := hexDigit_plain (b.toNat % 16) (by omega)
    have escape : step { s with mode := .text true '\'' read } '\\' = .ok { s with mode := .escape true '\'' read } := rfl
    have unknown : step { s with mode := .escape true '\'' read } 'x' =
        .ok { s with mode := .text true '\'' ('x' :: '\\' :: read) } := rfl
    rw [Text.hexByte, run_of_step escape, run_of_step unknown, run_of_step (step_text s true _ newline quote backslash),
      run_of_step (step_text s true _ newline' quote' backslash')]
    rfl

theorem run_quotedBytes (s : Lexer) (read : List Char) (bytes : List UInt8) :
    run { s with mode := .text true '\'' read } (bytes.flatMap Text.quotedByte) =
      .ok { s with mode := .text true '\'' ((bytes.flatMap Text.quotedByte).reverse ++ read) } := by
  induction bytes generalizing read with
  | nil => rfl
  | cons b bytes ih =>
    rw [flatMap_cons, run_of_run (run_quotedByte s read b), ih]
    simp

theorem quotedByte_ascii (b) : ∀ c ∈ Text.quotedByte b, c.toNat < 128 := by
  have small := b.toNat_lt
  unfold Text.quotedByte
  split
  · next plain =>
    have high : b.toNat ≤ 126 := (showsPlain_iff.1 plain).2.1
    rw [forall_mem_singleton, toNat_ofNat_byte]
    omega
  · rw [forall_mem_cons, forall_mem_cons, Text.hexByte, forall_mem_cons, forall_mem_singleton]
    exact ⟨by decide, by decide, (hexDigit_plain _ (by omega)).2.2.2, (hexDigit_plain _ (by omega)).2.2.2⟩

/-- The bytes of the characters that a bytes literal shows. -/
def shownBytes (bytes : List UInt8) : List UInt8 := (bytes.flatMap Text.quotedByte).map fun c => UInt8.ofNat c.toNat

theorem endText_quotedBytes (s : Lexer) (bytes : List UInt8) :
    s.endText true (bytes.flatMap Text.quotedByte).reverse = .ok (s.push (.bytes (shownBytes bytes))) := by
  have ascii : ((bytes.flatMap Text.quotedByte).all fun c => decide (c.toNat < 128)) = true := by
    rw [all_eq_true]
    intro c inside
    obtain ⟨b, -, shown⟩ := mem_flatMap.1 inside
    exact decide_eq_true (quotedByte_ascii b c shown)
  unfold endText
  dsimp only
  rw [reverse_reverse, if_pos rfl, if_pos ascii]
  rfl

theorem Spells.shownBytes (bytes : List UInt8) : Spells (Text.quotedBytes bytes) [.bytes (shownBytes bytes)] := by
  refine ⟨by simp, fun s rest => ?_⟩
  refine ⟨s.emit [.bytes (Lexer.shownBytes bytes)], ?_, pending_self rfl⟩
  have letter : s.step 'b' = .ok { s with mode := .letterB } := step_between rest _
  have opened : step { s with mode := .letterB } '\'' = .ok { s with mode := .text true '\'' [] } := rfl
  have ended : step { s with mode := .text true '\'' ((bytes.flatMap Text.quotedByte).reverse ++ []) } '\'' =
      .ok (s.emit [.bytes (Lexer.shownBytes bytes)]) := by
    rw [append_nil]
    exact endText_quotedBytes _ bytes
  unfold Text.quotedBytes
  rw [cons_append, cons_append, run_of_step letter, run_of_step opened, run_of_run (run_quotedBytes s [] bytes),
    run_of_step ended]
  rfl

theorem shownBytes_cons (b bytes) :
    shownBytes (b :: bytes) = (if Text.showsPlain b then [b] else (Text.quotedByte b).map fun c => UInt8.ofNat c.toNat) ++
      shownBytes bytes := by
  unfold shownBytes
  rw [flatMap_cons, map_append]
  split
  · next plain =>
    have back : UInt8.ofNat (Char.ofNat b.toNat).toNat = b := by rw [toNat_ofNat_byte, UInt8.ofNat_toNat]
    rw [Text.quotedByte, if_pos plain, map_singleton, back]
  · rfl

theorem length_le_shownBytes (bytes : List UInt8) : bytes.length ≤ (shownBytes bytes).length := by
  induction bytes with
  | nil => exact Nat.le_refl 0
  | cons b bytes ih =>
    rw [shownBytes_cons, length_append, length_cons]
    split
    · rw [length_singleton]
      omega
    · next hidden =>
      rw [Text.quotedByte, if_neg hidden, map_cons, length_cons]
      omega

/-- A literal shows the bytes themselves exactly if each shows as itself: all others take four characters. -/
theorem shownBytes_eq_self_iff : shownBytes bytes = bytes ↔ ∀ b ∈ bytes, Text.showsPlain b = true := by
  induction bytes with
  | nil => simp [shownBytes]
  | cons b bytes ih =>
    rw [shownBytes_cons, forall_mem_cons, ← ih]
    split
    · next plain => simp [plain]
    · next hidden =>
      refine iff_of_false (fun same => ?_) fun both => hidden both.1
      have lengths := congrArg List.length same
      have least := length_le_shownBytes bytes
      rw [Text.quotedByte, if_neg hidden, length_append, length_map, Text.hexByte] at lengths
      simp only [length_cons, length_nil] at lengths
      omega

theorem Spells.bytes {bytes} (plain : ∀ b ∈ bytes, Text.showsPlain b = true) :
    Spells (Text.quotedBytes bytes) [.bytes bytes] := by
  have spelled := Spells.shownBytes bytes
  rwa [shownBytes_eq_self_iff.2 plain] at spelled

theorem ofNat_natAbs_of_nonneg (sign : ¬ i.toInt < 0) : Int64.ofNat i.toInt.natAbs = i := by
  have magnitude : (i.toInt.natAbs : Int) = i.toInt := by omega
  rw [← Int64.ofInt_eq_ofNat, magnitude, Int64.ofInt_toInt]

theorem ofNat_natAbs_of_neg (sign : i.toInt < 0) : Int64.ofNat i.toInt.natAbs = -i := by
  have magnitude : (i.toInt.natAbs : Int) = -i.toInt := by omega
  rw [← Int64.ofInt_eq_ofNat, magnitude, Int64.ofInt_neg, Int64.ofInt_toInt]

theorem natAbs_lt (least : i ≠ Int64.minValue) : i.toInt.natAbs < 0x8000000000000000 := by
  have low := i.le_toInt
  have high := i.toInt_lt
  have above : i.toInt ≠ -2 ^ 63 := by
    intro same
    exact least (Int64.toInt_inj.1 (same.trans Int64.toInt_minValue.symm))
  omega

theorem Spells.int (least : i ≠ Int64.minValue) : Spells (Value.intChars i.toInt) (Value.toks (.int i)) := by
  have digits := Spells.number (natAbs_lt least)
  rw [Value.intChars, Value.toks]
  split
  · next sign =>
    rw [ofNat_natAbs_of_neg sign] at digits
    exact .open (by decide) digits
  · next sign =>
    rwa [ofNat_natAbs_of_nonneg sign] at digits

end Lexer

open Lexer

theorem reprRest_cons (v vs) : Value.reprRest (v :: vs) = ',' :: ' ' :: Value.reprItems (v :: vs) := rfl

theorem reprPairsRest_cons (p : Value × Value) (ps) :
    Value.reprPairsRest (p :: ps) = ',' :: ' ' :: Value.reprPairs (p :: ps) := rfl

mutual

theorem spells : (v : Value) → v.Spellable → Spells v.reprChars v.toks
  | .none, _ => .name (fun _ => rfl) (by decide)
  | .bool true, _ => .name (fun _ => rfl) (by decide)
  | .bool false, _ => .name (fun _ => rfl) (by decide)
  | .int i, fine => .int fine
  | .str s, _ => .text s
  | .bytes b, fine => .bytes fun x inside => showsPlain_iff.2 (fine x inside)
  | .tuple [], _ => .open (by decide) (.open (by decide) .nil)
  | .tuple [v], fine =>
    .open (by decide) ((spells v fine.1).delimit (by decide) (by decide) (.open (by decide) .nil))
  | .tuple (v :: u :: vs), fine =>
    .open (by decide) ((spells_items (v :: u :: vs) fine).delimit (by decide) (by decide) .nil)
  | .list items, fine => .open (by decide) ((spells_items items fine).delimit (by decide) (by decide) .nil)
  | .dict items, fine => .open (by decide) ((spells_pairs items fine.1).delimit (by decide) (by decide) .nil)

theorem spells_items : (vs : List Value) → Value.SpellableAll vs → Spells (Value.reprItems vs) (Value.toksItems vs)
  | [], _ => .nil
  | [v], fine => by
    rw [Value.reprItems, Value.toksItems, Value.reprRest, Value.toksRest, append_nil, append_nil]
    exact spells v fine.1
  | v :: u :: vs, fine => by
    rw [Value.reprItems, Value.toksItems, reprRest_cons, toksRest_cons]
    exact (spells v fine.1).delimit (by decide) (by decide) (.blank (spells_items (u :: vs) fine.2))

theorem spells_pairs : (ps : List (Value × Value)) → Value.SpellablePairs ps →
    Spells (Value.reprPairs ps) (Value.toksPairs ps)
  | [], _ => .nil
  | [(k, v)], fine => by
    rw [Value.reprPairs, Value.toksPairs, Value.reprPairsRest, Value.toksPairsRest, append_nil, append_nil]
    exact (spells k fine.1).delimit (by decide) (by decide) (.blank (spells v fine.2.1))
  | (k, v) :: p :: ps, fine => by
    rw [Value.reprPairs, Value.toksPairs, reprPairsRest_cons, toksPairsRest_cons, append_assoc, append_assoc]
    exact (spells k fine.1).delimit (by decide) (by decide)
      (.blank ((spells v fine.2.1).delimit (by decide) (by decide) (.blank (spells_pairs (p :: ps) fine.2.2))))

end

/-! ## Assigning a printed value -/

theorem Lexer.atLineStart_emit (s : Lexer) (some : ts ≠ []) (inner : ∀ tok ∈ ts, tok ≠ .newline) :
    (s.emit ts).atLineStart = false := by
  obtain rfl | ⟨us, tok, rfl⟩ := eq_nil_or_concat ts
  · exact absurd rfl some
  · have last : tok ≠ .newline := inner tok (by simp)
    simp [emit, atLineStart, last]

theorem Lexer.finish_emit (some : ts ≠ []) (inner : ∀ tok ∈ ts, tok ≠ .newline) :
    (emit {} ts).finish = (ts.map (⟨·, 1⟩) ++ [⟨.newline, 1⟩]) ++ [⟨.eof, 1⟩] := by
  rw [finish_eq, closed, atLineStart_emit {} some inner]
  simp [emit]

theorem compile_assign (spelled : Spells text ts) (atom : Atom e ts) (file) :
    Script.compile ("x = " ++ String.ofList text) file = .ok ⟨file, [.act 1 (.assign "x" e)]⟩ := by
  have inner : ∀ tok ∈ .name "x" :: .equal :: ts, tok ≠ .newline ∧ tok ≠ .eof := by
    intro tok inside
    obtain rfl | rfl | inside := by simpa using inside
    · simp
    · simp
    · exact spelled.inner tok inside
  have scanned : scan ("x = " ++ String.ofList text).toList = .ok (emit {} (.name "x" :: .equal :: ts)).finish := by
    obtain ⟨t, ran, pending⟩ := spelled.scan (emit {} [.name "x", .equal]) rfl
    have start : run {} ['x', ' ', '=', ' '] = .ok (emit {} [.name "x", .equal]) := rfl
    rw [String.toList_append, @String.toList_ofList text, scan]
    show (run {} (['x', ' ', '=', ' '] ++ text) >>= _) = _
    rw [run_of_run start, ran]
    show (t.settle >>= _) = _
    rw [pending.settle, emit_emit]
    rfl
  have module : Module file [.act 1 (.assign "x" e)] ((.name "x" :: .equal :: ts).map (⟨·, 1⟩) ++ [⟨.newline, 1⟩]) := by
    refine .cons (.last (.act (t := ⟨.name "x", 1⟩) (.assign rfl ?_))) .nil
    simpa [kinds, Function.comp_def] using atom.expression
  refine compile_of scanned ?_
  rw [finish_emit (by simp) fun tok inside => (inner tok inside).1]
  refine (parseTokens_ok_iff ?_).2 module
  intro t inside
  obtain before | last := mem_append.1 inside
  · obtain ⟨tok, there, rfl⟩ := mem_map.1 before
    exact (inner tok there).2
  · obtain rfl := mem_singleton.1 last
    simp

theorem Bindings.get?_insert (b : Bindings α) (name) (v : α) : (b.insert name v).get? name = some v := by
  rw [Bindings.get?_insert_any, if_pos rfl]

/-- Assigning an expression that only gives a value binds the value; the host hears of the one the name was bound to. -/
theorem exec_assign_of (h : Natives σ)
    (value : Expr.eval h (callValue h callBudget) ⟨ns, none⟩ e { host } = (.ok v, { host })) (file) :
    Script.exec h ⟨file, [.act 1 (.assign "x" e)]⟩ ns host =
      (.ok (), ns.insert "x" v, (ns.get? "x").elim host fun old => h.letGo old host) := by
  have unbound : h.unbind ns "x" ({ host } : Run σ) =
      (.ok (), { host := (ns.get? "x").elim host fun old => h.letGo old host }) := by
    unfold Natives.unbind
    cases ns.get? "x" <;> rfl
  have ran : Stmt.exec h (callValue h callBudget) none ns (.act 1 (.assign "x" e)) { host } =
      (.ok (.next, ns.insert "x" v), { host := (ns.get? "x").elim host fun old => h.letGo old host }) :=
    (bind_of_ok value).trans (bind_of_ok unbound)
  have block : execBlock h (callValue h callBudget) none file "<module>" [.act 1 (.assign "x" e)] ns { host } =
      ((.ok .next, ns.insert "x" v), { host := (ns.get? "x").elim host fun old => h.letGo old host }) := by
    rw [execBlock_cons, ran]
    rfl
  exact exec_of_block block

theorem exec_assign (h : Natives σ) (fine : v.Spellable) (file) (ns : Namespace) (host : σ) :
    Script.exec h ⟨file, [.act 1 (.assign "x" v.literal)]⟩ ns host =
      (.ok (), ns.insert "x" v, (ns.get? "x").elim host fun old => h.letGo old host) :=
  exec_assign_of h (eval_literal h (callValue h callBudget) ⟨ns, none⟩ { host } v fine) file

/-- The printed form of a spellable value is source text for it: assigned to a name, it compiles, and running it in any
namespace binds the name to that very value, which is equal to itself. -/
theorem repr_roundtrip {v : Value} (fine : v.Spellable) (file : String) :
    ∃ s, Script.compile ("x = " ++ v.repr) file = .ok s ∧
      ∀ (σ : Type) (h : Natives σ) (ns : Namespace) (host : σ), ∃ ns' host',
        s.exec h ns host = (.ok (), ns', host') ∧ ns' = ns.insert "x" v ∧ ns'.get? "x" = some v ∧ v.same v = true := by
  refine ⟨_, compile_assign (spells v fine) (literal_atom v fine) file, fun σ h ns host => ?_⟩
  exact ⟨_, _, exec_assign h fine file ns host, rfl, Bindings.get?_insert ns "x" v, (same_iff_eq v fine v).2 rfl⟩

/-- Quotes, escapes, signs and every kind of bracket. -/
def spelledSample : Value :=
  .dict [(.str "it's\n\\ é", .tuple [.int (-5)]), (.tuple [], .list [.bytes [32, 126], .bool true, .none, .dict []])]

theorem repr_roundtrip_sample :
    spelledSample.Spellable ∧
    spelledSample.repr = "\x7b'it\\'s\\n\\\\ é': (-5,), (): [b' ~', True, None, \x7b\x7d]\x7d" ∧
    ∃ s, Script.compile ("x = " ++ spelledSample.repr) "m" = .ok s ∧
      ∃ ns', s.exec Builtin.natives ⟨[("x", .none)]⟩ () = (.ok (), ns', ()) ∧ ns'.get? "x" = some spelledSample := by
  have fine : spelledSample.Spellable := by
    simp [spelledSample, Value.Spellable, Value.SpellableAll, Value.SpellablePairs]
  refine ⟨fine, by cbv, ?_⟩
  obtain ⟨s, compiled, runs⟩ := repr_roundtrip fine "m"
  obtain ⟨ns', host', ran, -, bound, -⟩ := runs Unit Builtin.natives ⟨[("x", .none)]⟩ ()
  exact ⟨s, compiled, ns', ran, bound⟩

/-- Any printed bytes, assigned to a name, compile and run, and bind the name to the bytes of the characters that the
literal shows. Those are the bytes that were printed exactly if each of them is printable ASCII other than the quote and
the backslash: the scanner has no hexadecimal escape. -/
theorem bytes_literal_reads_back_iff (b : List UInt8) (file : String) :
    ∃ s, Script.compile ("x = " ++ (Value.bytes b).repr) file = .ok s ∧
      ∀ (σ : Type) (h : Natives σ) (ns : Namespace) (host : σ), ∃ ns' host',
        s.exec h ns host = (.ok (), ns', host') ∧ ns' = ns.insert "x" (.bytes (shownBytes b)) ∧
        (ns'.get? "x" = some (.bytes b) ↔ ∀ x ∈ b, 32 ≤ x ∧ x ≤ 126 ∧ x ≠ 39 ∧ x ≠ 92) := by
  refine ⟨_, compile_assign (Spells.shownBytes b) (.bytes (shownBytes b)) file, fun σ h ns host => ?_⟩
  refine ⟨_, _, exec_assign_of h rfl file, rfl, ?_⟩
  rw [Bindings.get?_insert, Option.some_inj, Value.bytes.injEq, shownBytes_eq_self_iff]
  simp only [showsPlain_iff]

example : shownBytes [0, 65] = [92, 120, 48, 48, 65] := by decide

end MonitoredVm
