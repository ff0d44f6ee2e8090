import MonitoredVm.Proofs.Scanning

/-!
# Tokens in the text

A text is a sequence of lexemes with blanks and comments between them; a newline is a lexeme outside brackets and after
a lexeme of the same line (`Layout`). How a token is spelled does not mention the scanner (`Spelled`). The scanner finds
such a sequence. It counts the newlines between lexemes but not those inside literals, so the line of a token is the line
of its first character less the newlines in the literals before it (`scan_lexemes`).
-/

namespace MonitoredVm

open Grammar List

/-- A token with its characters and the text before them. -/
structure Lexeme where
  before : List Char
  word : List Char
  token : Token

namespace Lexeme

def start (l : Lexeme) : Nat := 1 + l.before.count '\n'

def isLiteral (l : Lexeme) : Bool :=
  match l.token.tok with
  | .str _ | .bytes _ => true
  | _ => false

/-- The newlines inside literals. -/
def spilt (ls : List Lexeme) : Nat := ((ls.filter isLiteral).flatMap word).count '\n'

def AtStart (ls : List Lexeme) : Prop := ∀ l ∈ ls.getLast?, l.token.tok = .newline

/-- A newline here is no lexeme. -/
def Open (ls : List Lexeme) : Prop := 0 < (kinds (ls.map token)).foldl nest 0 ∨ AtStart ls

/-- Each token stands on the line of its first character, less the newlines in the literals before it. -/
def Lined (ls : List Lexeme) : Prop := ∀ pre l post, ls = pre ++ l :: post → l.token.line + spilt pre = l.start

theorem spilt_append (ls ms) : spilt (ls ++ ms) = spilt ls + spilt ms := by simp [spilt]

theorem Lined.concat (h : Lined ls) (last : l.token.line + spilt ls = l.start) : Lined (ls ++ [l]) := by
  intro pre m post same
  obtain rfl | ⟨post, n, rfl⟩ := post.eq_nil_or_concat
  · obtain ⟨rfl, one⟩ := append_inj' same rfl
    obtain rfl : l = m := by simpa using one
    exact last
  · have same : ls ++ [l] = (pre ++ m :: post) ++ [n] := by simpa using same
    exact h pre m post (append_inj' same rfl).1

end Lexeme

open Lexeme

namespace Lexer

/-! ## Spellings -/

/-- A first character and further ones. -/
def Wordy (first more : Char → Bool) : List Char → Prop
  | [] => False
  | c :: w => first c = true ∧ ∀ d ∈ w, more d = true

theorem Wordy.concat (h : Wordy first more w) (next : more c = true) : Wordy first more (w ++ [c]) := by
  cases w with
  | nil => exact h.elim
  | cons d w => exact ⟨h.1, forall_mem_append.2 ⟨h.2, by simpa using next⟩⟩

theorem Wordy.not_mem (h : Wordy first more w) (outside : first c = false) (outside' : more c = false) : c ∉ w := by
  cases w with
  | nil => exact h.elim
  | cons d w =>
    rintro (_ | ⟨_, mem⟩)
    · exact Bool.false_ne_true (outside ▸ h.1)
    · exact Bool.false_ne_true (outside' ▸ h.2 c mem)

/-- What follows the first digit of a number. -/
def numeric (c : Char) : Bool := c.isDigit || c == '_' || c == '.'

/-- The characters of a number that count. -/
def digits (w : List Char) : List Char := w.filter (· != '_')

/-- The characters between the quotes of a literal, and those they stand for, newest first. -/
inductive Unescaped (quote : Char) : List Char → List Char → Prop
  | nil : Unescaped quote [] []
  | plain {body read c} : Unescaped quote body read → c ≠ '\n' → c ≠ quote → c ≠ '\\' →
      Unescaped quote (body ++ [c]) (c :: read)
  | escape {body read} (c) : Unescaped quote body read → Unescaped quote (body ++ ['\\', c]) (unescape c ++ read)

/-- The characters before a literal's. -/
def opening (isBytes : Bool) (quote : Char) : List Char := if isBytes then ['b', quote] else [quote]

/-- The ways to write a token. -/
inductive Spelled : Tok → List Char → Prop
  | mark {c tok} : (c, tok) ∈ marks → Spelled tok [c]
  | name {w} : Wordy Text.startsName Text.continuesName w → Spelled (.name (String.ofList w)) w
  | int {w} : Wordy Char.isDigit numeric w → '.' ∉ w → decimalValue (digits w) < 0x8000000000000000 →
      Spelled (.int (Int64.ofNat (decimalValue (digits w)))) w
  | float {w x} : Wordy Char.isDigit numeric w → '.' ∈ w → Binary64.ofDecimal? (digits w) = some x → Spelled (.float x) w
  | literal {isBytes quote body read tok} : isQuote quote = true → Unescaped quote body read →
      Literal isBytes read tok → Spelled tok (opening isBytes quote ++ body ++ [quote])

/-- A text and its lexemes; the flag tells whether the text ends in a comment. -/
inductive Layout : Bool → List Char → List Lexeme → Prop
  | start : Layout false [] []
  | blank {text ls c} : Layout false text ls → c = ' ' ∨ c = '\t' ∨ c = '\r' → Layout false (text ++ [c]) ls
  | hash {text ls} : Layout false text ls → Layout true (text ++ ['#']) ls
  | comment {text ls c} : Layout true text ls → c ≠ '\n' → Layout true (text ++ [c]) ls
  | join {inside text ls} : Layout inside text ls → Open ls → Layout false (text ++ ['\n']) ls
  | newline {inside text ls} (line) : Layout inside text ls → ¬Open ls →
      Layout false (text ++ ['\n']) (ls ++ [⟨text, ['\n'], ⟨.newline, line⟩⟩])
  | word {text ls w tok} (line) : Layout false text ls → Spelled tok w →
      Layout false (text ++ w) (ls ++ [⟨text, w, ⟨tok, line⟩⟩])

/-- The lexemes of a whole text, its last line ended and the end of input marked. -/
inductive Tiles (source : List Char) : List Lexeme → Prop
  | ended {inside ls} (line) : Layout inside source ls → AtStart ls → Tiles source (ls ++ [⟨source, [], ⟨.eof, line⟩⟩])
  | unended {inside ls} (line line') : Layout inside source ls → ¬AtStart ls →
      Tiles source (ls ++ [⟨source, [], ⟨.newline, line⟩⟩, ⟨source, [], ⟨.eof, line'⟩⟩])

theorem Spelled.counted (h : Spelled tok w) (text line) : spilt [⟨text, w, ⟨tok, line⟩⟩] = w.count '\n' := by
  have plain : '\n' ∉ w → spilt [⟨text, w, ⟨tok, line⟩⟩] = w.count '\n' := by
    intro none
    rw [count_eq_zero_of_not_mem none]
    simpa [spilt, filter_cons, count_eq_zero] using fun _ => none
  cases h with
  | @mark c tok mem =>
    refine plain fun newline => ?_
    obtain rfl : '\n' = c := by simpa using newline
    revert mem
    simp [marks]
  | name wordy => exact plain (wordy.not_mem (by decide) (by decide))
  | int wordy => exact plain (wordy.not_mem (by decide) (by decide))
  | float wordy => exact plain (wordy.not_mem (by decide) (by decide))
  | literal _ _ literal => cases literal <;> simp [spilt, filter_cons, isLiteral]

/-! ## The scanner finds lexemes -/

/-- The characters of the token in progress. -/
def Holds : LexMode → List Char → Prop
  | .between, w | .comment, w => w = []
  | .letterB, w => w = ['b']
  | .name read, w => w = read.reverse ∧ Wordy Text.startsName Text.continuesName w
  | .number read isFloat, w => digits w = read.reverse ∧ Wordy Char.isDigit numeric w ∧ (isFloat = true ↔ '.' ∈ w)
  | .text isBytes quote read, w => isQuote quote = true ∧ ∃ body, w = opening isBytes quote ++ body ∧ Unescaped quote body read
  | .escape isBytes quote read, w =>
    isQuote quote = true ∧ ∃ body, w = opening isBytes quote ++ body ++ ['\\'] ∧ Unescaped quote body read

/-- The scanner has read the lexemes `ls` of `text` and is inside `word`. -/
structure Reads (s : Lexer) (text word : List Char) (ls : List Lexeme) : Prop where
  tidy : s.Tidy
  layout : Layout (decide (s.mode = .comment)) text ls
  holds : Holds s.mode word
  tokens : s.tokens.reverse = ls.map token
  lined : Lined ls
  line : s.line + spilt ls = 1 + text.count '\n'

theorem holds_acts {mode next c w} (acts : Acts mode c (.wait next)) (holds : Holds mode w)
    (busy : next ≠ .between ∧ next ≠ .comment) : Holds next (w ++ [c]) := by
  have notGap : ∀ {d : Char}, d.isDigit = true → (d != '_') = true ∧ '.' ≠ d := by
    refine fun {d} digit => ⟨bne_iff_ne.2 ?_, ?_⟩ <;> rintro rfl <;> cases digit
  cases acts with
  | blank => exact absurd rfl busy.1
  | hash => exact absurd rfl busy.2
  | commented => exact absurd rfl busy.2
  | quote quote =>
    subst holds
    exact ⟨quote, [], rfl, .nil⟩
  | letterB =>
    subst holds
    rfl
  | digit digit =>
    subst holds
    exact ⟨by simp [digits, (notGap digit).1], ⟨digit, by simp⟩, by simp [(notGap digit).2]⟩
  | letter letter =>
    subst holds
    exact ⟨rfl, letter, by simp⟩
  | quoteB quote =>
    subst holds
    exact ⟨quote, [], rfl, .nil⟩
  | nameB more =>
    subst holds
    exact ⟨rfl, by decide, by simpa using more⟩
  | named more => exact ⟨by rw [reverse_cons, holds.1], holds.2.concat more⟩
  | digits digit =>
    obtain ⟨same, number, float⟩ := holds
    refine ⟨?_, number.concat (by simp [numeric, digit]), ?_⟩
    · rw [reverse_cons, ← same]
      simp [Lexer.digits, (notGap digit).1]
    · simp [float, (notGap digit).2]
  | gap =>
    obtain ⟨same, number, float⟩ := holds
    exact ⟨by rw [← same]; simp [Lexer.digits], number.concat (by decide), by simp [float]⟩
  | point =>
    obtain ⟨same, number, float⟩ := holds
    exact ⟨by rw [reverse_cons, ← same]; simp [Lexer.digits], number.concat (by decide), by simp⟩
  | slash =>
    obtain ⟨quote, body, rfl, unescaped⟩ := holds
    exact ⟨quote, body, rfl, unescaped⟩
  | plain line ends slash =>
    obtain ⟨quote, body, rfl, unescaped⟩ := holds
    exact ⟨quote, body ++ [c], append_assoc .., unescaped.plain line ends slash⟩
  | escaped =>
    obtain ⟨quote, body, rfl, unescaped⟩ := holds
    exact ⟨quote, body ++ ['\\', c], by simp, unescaped.escape c⟩

theorem Settles.spelled {mode tok w} (h : Settles mode tok) (holds : Holds mode w) : Spelled tok w := by
  cases h with
  | letterB =>
    subst holds
    exact .name ⟨by decide, by simp⟩
  | name read =>
    obtain ⟨rfl, wordy⟩ := holds
    exact .name wordy
  | int fits =>
    obtain ⟨same, number, float⟩ := holds
    rw [← same] at fits ⊢
    exact .int number (fun point => Bool.false_ne_true (float.2 point)) fits
  | float value =>
    obtain ⟨same, number, float⟩ := holds
    rw [← same] at value
    exact .float number (float.1 rfl) value

section Reads
variable {s : Lexer} {text word : List Char} {ls : List Lexeme}

theorem Reads.wait (h : Reads s text word ls) (outside : s.mode ≠ .comment) {mode w} (next : mode ≠ .comment)
    (holds : Holds mode w) : Reads { s with mode } text w ls where
  tidy := ⟨h.tidy.depth, h.tidy.inner⟩
  layout := by
    have layout := h.layout
    rw [decide_eq_false outside] at layout
    rw [decide_eq_false next]
    exact layout
  holds := holds
  tokens := h.tokens
  lined := h.lined
  line := h.line

theorem Reads.add (h : Reads s text word ls) (outside : s.mode ≠ .comment) (spelled : Spelled tok w)
    (inner : tok ≠ .eof) : Reads (s.add tok) (text ++ w) [] (ls ++ [⟨text, w, ⟨tok, s.line⟩⟩]) where
  tidy := tidy_add h.tidy inner
  layout := by
    have layout := h.layout
    rw [decide_eq_false outside] at layout
    exact .word s.line layout spelled
  holds := rfl
  tokens := by simp [Lexer.add, push, h.tokens]
  lined := h.lined.concat h.line
  line := by
    show s.line + _ = _
    rw [spilt_append, spelled.counted, count_append, ← Nat.add_assoc, ← Nat.add_assoc, h.line]

theorem Reads.atStart_iff (h : Reads s text word ls) : AtStart ls ↔ s.atLineStart = true := by
  have tokens : s.tokens = (ls.map token).reverse := by rw [← h.tokens, reverse_reverse]
  unfold atLineStart
  rw [tokens]
  obtain rfl | ⟨ms, l, rfl⟩ := ls.eq_nil_or_concat <;> simp [AtStart]

theorem Reads.newline (h : Reads s text word ls) : ∃ ls', Reads s.newline (text ++ ['\n']) [] ls' := by
  have open_iff : Open ls ↔ (s.depth > 0 || s.atLineStart) = true := by
    rw [Open, h.atStart_iff, ← h.tokens, ← h.tidy.depth]
    simp
  have counted : (text ++ ['\n']).count '\n' = text.count '\n' + 1 := by simp
  have line := h.line
  unfold Lexer.newline
  split
  · next opened =>
    refine ⟨ls, ⟨h.tidy.depth, h.tidy.inner⟩, .join h.layout (open_iff.2 opened), rfl, h.tokens, h.lined, ?_⟩
    show s.line + 1 + _ = _
    omega
  · next closed =>
    have tidy := tidy_add h.tidy (show Tok.newline ≠ .eof by simp)
    have layout := Layout.newline s.line h.layout fun opened => closed (open_iff.1 opened)
    refine ⟨_, ⟨tidy.depth, tidy.inner⟩, layout, rfl, ?_, h.lined.concat line, ?_⟩
    · simp [push, h.tokens]
    · show s.line + 1 + _ = _
      have none : spilt [⟨text, ['\n'], ⟨.newline, s.line⟩⟩] = 0 := rfl
      rw [spilt_append, none]
      omega

/-- One character. The induction is on what it does: a token that ends first leaves the scanner between tokens. -/
theorem Reads.acts {mode c e} (acts : Acts mode c e) {text word ls} (h : Reads s text word ls) (same : s.mode = mode)
    (next : e.apply s = .ok t) : ∃ text' word' ls', text' ++ word' = text ++ word ++ [c] ∧ Reads t text' word' ls' := by
  have holds := same ▸ h.holds
  induction acts generalizing s text word ls with
  | newline | uncommented =>
    cases next
    obtain rfl : word = [] := holds
    obtain ⟨ls', reads⟩ := h.newline
    exact ⟨_, [], ls', by simp, reads⟩
  | blank blank =>
    cases next
    obtain rfl : word = [] := holds
    have layout := h.layout
    rw [same] at layout
    exact ⟨_, [], ls, by simp, ⟨h.tidy.depth, h.tidy.inner⟩, layout.blank blank, rfl, h.tokens, h.lined, by
      rw [count_append, h.line]
      rcases blank with rfl | rfl | rfl <;> rfl⟩
  | hash =>
    cases next
    obtain rfl : word = [] := holds
    have layout := h.layout
    rw [same] at layout
    exact ⟨_, [], ls, by simp, ⟨h.tidy.depth, h.tidy.inner⟩, layout.hash, rfl, h.tokens, h.lined, by
      rw [count_append, h.line]
      rfl⟩
  | commented line =>
    cases next
    obtain rfl : word = [] := holds
    have layout := h.layout
    rw [same] at layout
    exact ⟨_, [], ls, by simp, ⟨h.tidy.depth, h.tidy.inner⟩, layout.comment line, rfl, h.tokens, h.lined, by
      rw [count_append, h.line, count_singleton, if_neg (by simpa using line)]
      rfl⟩
  | mark mem =>
    cases next
    obtain rfl : word = [] := holds
    exact ⟨_, [], _, by simp, h.add (by simp [same]) (.mark mem) (mark_inner _ mem).2⟩
  | closed literal =>
    cases next
    obtain ⟨quote, body, rfl, unescaped⟩ := holds
    refine ⟨_, [], _, by simp, h.add (by simp [same]) (.literal quote unescaped literal) ?_⟩
    cases literal <;> simp
  | settled settles acts ih =>
    have outside : s.mode ≠ .comment := by
      rw [same]
      cases settles <;> simp
    obtain ⟨text', word', ls', text, reads⟩ := ih (h.add outside (settles.spelled holds) settles.inner) rfl next rfl
    exact ⟨text', word', ls', by simpa using text, reads⟩
  | fault f => cases next
  | _ =>
    cases next
    refine ⟨text, _, ls, (append_assoc ..).symm, h.wait (by simp [same]) (by simp) (holds_acts ?_ holds (by simp))⟩
    constructor <;> assumption

theorem Reads.run (h : Reads s text word ls) (next : s.run source = .ok t) :
    ∃ text' word' ls', text' ++ word' = text ++ word ++ source ∧ Reads t text' word' ls' := by
  induction source generalizing s text word ls with
  | nil => exact ⟨text, word, ls, by simp, Except.ok.inj next ▸ h⟩
  | cons c source ih =>
    obtain ⟨mid, first, second⟩ := bind_eq_ok next
    obtain ⟨e, acts, eq⟩ := step_acts s.mode c
    obtain ⟨text', word', ls', same, reads⟩ := Reads.acts acts h rfl ((eq s).symm.trans first)
    obtain ⟨text'', word'', ls'', same', reads'⟩ := ih reads second
    exact ⟨text'', word'', ls'', by simpa [same] using same', reads'⟩

theorem Reads.settle (h : Reads s text word ls) (settled : s.settle = .ok t) :
    ∃ u ls', Reads u (text ++ word) [] ls' ∧ t = { u with mode := .between } := by
  obtain ⟨e, ending, eq⟩ := settle_ending s.mode
  have done : e.apply s = .ok t := (eq s).symm.trans settled
  have holds := h.holds
  generalize same : s.mode = mode at ending holds
  cases ending with
  | between | comment =>
    obtain rfl : word = [] := holds
    exact ⟨s, ls, by simpa using h, (Except.ok.inj done).symm⟩
  | token settles =>
    have outside : s.mode ≠ .comment := by
      rw [same]
      cases settles <;> simp
    exact ⟨_, _, h.add outside (settles.spelled holds) settles.inner, (Except.ok.inj done).symm⟩
  | fault f => cases done

end Reads

theorem scan_lexemes {source tokens} (scanned : scan source = .ok tokens) :
    ∃ ls, Tiles source ls ∧ ls.map token = tokens ∧ Lined ls := by
  obtain ⟨s, t, ran, settled, rfl⟩ := scan_ok scanned
  have start : Reads {} [] [] [] := ⟨⟨rfl, by simp⟩, .start, rfl, rfl, by simp [Lined], rfl⟩
  obtain ⟨text, word, ls, same, reads⟩ := start.run ran
  obtain ⟨u, ms, last, rfl⟩ := reads.settle settled
  rw [same, append_nil, nil_append] at last
  have finish : ({ u with mode := .between } : Lexer).finish = u.closed.reverse ++ [⟨.eof, u.line⟩] := finish_eq
  rw [finish]
  by_cases atStart : u.atLineStart = true
  · refine ⟨_, .ended u.line last.layout (last.atStart_iff.2 atStart), ?_, last.lined.concat last.line⟩
    simp [closed, atStart, last.tokens]
  · refine ⟨_, .unended u.line u.line last.layout (fun h => atStart (last.atStart_iff.1 h)), ?_, ?_⟩
    · simp [closed, atStart, last.tokens]
    · have ended := last.lined.concat (l := ⟨source, [], ⟨.newline, u.line⟩⟩) last.line
      have both := ended.concat (l := ⟨source, [], ⟨.eof, u.line⟩⟩) (by rw [spilt_append]; exact last.line)
      simpa using both

end Lexer
end MonitoredVm
