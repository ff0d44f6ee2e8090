import MonitoredVm.Proofs.Statements

/-!
# The scanner on a text and its continuation

What a character does depends on the scanner's mode and not on what was scanned before (`step_acts`, `settle_ending`).
From it: the depth is that of the brackets scanned (`tidy_run`), and scanning after other tokens finds the same tokens
further down (`after_run`). Main statement: if the first text leaves no bracket open, the tokens of two texts with a
newline between them are those of the first followed by those of the second, moved down by the lines of the first
(`scan_join`).
-/

namespace MonitoredVm

open Grammar

namespace Lexer

/-- Adds a token, which may open or close a bracket. -/
def add (s : Lexer) (tok : Tok) : Lexer := { s.push tok with depth := nest s.depth tok }

/-- What a character does. -/
inductive Effect where
  | endLine
  | wait (mode : LexMode)
  | token (tok : Tok)
  /-- The token in progress ends in front of the character. -/
  | ending (tok : Tok) (e : Effect)
  | fault (f : CompileFault)

namespace Effect

def apply : Effect → Lexer → Except FaultAt Lexer
  | endLine, s => .ok s.newline
  | wait mode, s => .ok { s with mode }
  | token tok, s => .ok (s.add tok)
  | ending tok e, s => e.apply (s.add tok)
  | fault f, s => s.fail f

theorem apply_mode (e : Effect) (mode s) : e.apply { s with mode } = e.apply s := by cases e <;> rfl

/-- No token ends the input. -/
def Inner : Effect → Prop
  | token tok => tok ≠ .eof
  | ending tok e => tok ≠ .eof ∧ e.Inner
  | _ => True

end Effect

/-- The tokens of one character. -/
def marks : List (Char × Tok) :=
  [('(', .lparen), (')', .rparen), ('[', .lbracket), (']', .rbracket), ('\x7b', .lbrace), ('\x7d', .rbrace),
    (',', .comma), (':', .colon), (';', .semi), ('=', .equal), ('-', .minus)]

theorem mark_inner : ∀ mark ∈ marks, mark.2 ≠ .newline ∧ mark.2 ≠ .eof := by decide

/-- The token that has been read when it does not go on. -/
inductive Settles : LexMode → Tok → Prop
  | letterB : Settles .letterB (.name "b")
  | name (read) : Settles (.name read) (.name (String.ofList read.reverse))
  | int {read} : decimalValue read.reverse < 0x8000000000000000 →
      Settles (.number read false) (.int (Int64.ofNat (decimalValue read.reverse)))
  | float {read x} : Binary64.ofDecimal? read.reverse = some x →
      Settles (.number read true) (.float x)

/-- The literal with the characters `read`, newest first. -/
inductive Literal : Bool → List Char → Tok → Prop
  | text (read) : Literal false read (.str (String.ofList read.reverse))
  | bytes {read} : (∀ c ∈ read, c.toNat < 128) →
      Literal true read (.bytes (read.reverse.map fun c => UInt8.ofNat c.toNat))

/-- What a character does in a mode. -/
inductive Acts : LexMode → Char → Effect → Prop
  | newline : Acts .between '\n' .endLine
  | blank {c} : c = ' ' ∨ c = '\t' ∨ c = '\r' → Acts .between c (.wait .between)
  | hash : Acts .between '#' (.wait .comment)
  | quote {c} : isQuote c = true → Acts .between c (.wait (.text false c []))
  | letterB : Acts .between 'b' (.wait .letterB)
  | digit {c} : c.isDigit = true → Acts .between c (.wait (.number [c] false))
  | letter {c} : Text.startsName c = true → Acts .between c (.wait (.name [c]))
  | mark {c tok} : (c, tok) ∈ marks → Acts .between c (.token tok)
  | commented {c} : c ≠ '\n' → Acts .comment c (.wait .comment)
  | uncommented : Acts .comment '\n' .endLine
  | quoteB {c} : isQuote c = true → Acts .letterB c (.wait (.text true c []))
  | nameB {c} : Text.continuesName c = true → Acts .letterB c (.wait (.name [c, 'b']))
  | named {c read} : Text.continuesName c = true → Acts (.name read) c (.wait (.name (c :: read)))
  | digits {c read isFloat} : c.isDigit = true →
      Acts (.number read isFloat) c (.wait (.number (c :: read) isFloat))
  | gap {read isFloat} : Acts (.number read isFloat) '_' (.wait (.number read isFloat))
  | point {read isFloat} : Acts (.number read isFloat) '.' (.wait (.number ('.' :: read) true))
  | closed {isBytes quote read tok} : Literal isBytes read tok →
      Acts (.text isBytes quote read) quote (.token tok)
  | slash {isBytes quote read} :
      Acts (.text isBytes quote read) '\\' (.wait (.escape isBytes quote read))
  | plain {isBytes quote read c} : c ≠ '\n' → c ≠ quote → c ≠ '\\' →
      Acts (.text isBytes quote read) c (.wait (.text isBytes quote (c :: read)))
  | escaped {isBytes quote read} (c) :
      Acts (.escape isBytes quote read) c (.wait (.text isBytes quote (unescape c ++ read)))
  | settled {mode tok c e} : Settles mode tok → Acts .between c e →
      Acts mode c (.ending tok e)
  | fault {mode c} (f) : Acts mode c (.fault f)

/-- What the end of the text does in a mode. -/
inductive Ending : LexMode → Effect → Prop
  | between : Ending .between (.wait .between)
  | comment : Ending .comment (.wait .between)
  | token {mode tok} : Settles mode tok → Ending mode (.token tok)
  | fault {mode} (f) : Ending mode (.fault f)

theorem start_acts (c) : ∃ e, Acts .between c e ∧ ∀ s : Lexer, s.start c = e.apply s := by
  unfold start
  by_cases line : c = '\n'
  · subst line
    exact ⟨_, .newline, fun s => rfl⟩
  by_cases blank : (c = ' ' || c = '\t' || c = '\r') = true
  · exact ⟨_, .blank (by simpa [or_assoc] using blank), fun s => by rw [if_neg line, if_pos blank]; rfl⟩
  by_cases hash : c = '#'
  · subst hash
    exact ⟨_, .hash, fun s => rfl⟩
  by_cases quote : isQuote c = true
  · exact ⟨_, .quote quote, fun s => by rw [if_neg line, if_neg blank, if_neg hash, if_pos quote]; rfl⟩
  by_cases letter : c = 'b'
  · subst letter
    exact ⟨_, .letterB, fun s => rfl⟩
  by_cases digit : c.isDigit = true
  · exact ⟨_, .digit digit, fun s => by
      rw [if_neg line, if_neg blank, if_neg hash, if_neg quote, if_neg letter, if_pos digit]; rfl⟩
  by_cases name : Text.startsName c = true
  · exact ⟨_, .letter name, fun s => by
      rw [if_neg line, if_neg blank, if_neg hash, if_neg quote, if_neg letter, if_neg digit, if_pos name]; rfl⟩
  simp only [if_neg line, if_neg blank, if_neg hash, if_neg quote, if_neg letter, if_neg digit, if_neg name]
  split
  · exact ⟨.token .lparen, .mark (by decide), fun s => rfl⟩
  · exact ⟨.token .lbracket, .mark (by decide), fun s => rfl⟩
  · exact ⟨.token .lbrace, .mark (by decide), fun s => rfl⟩
  · exact ⟨.token .rparen, .mark (by decide), fun s => rfl⟩
  · exact ⟨.token .rbracket, .mark (by decide), fun s => rfl⟩
  · exact ⟨.token .rbrace, .mark (by decide), fun s => rfl⟩
  · exact ⟨.token .comma, .mark (by decide), fun s => rfl⟩
  · exact ⟨.token .colon, .mark (by decide), fun s => rfl⟩
  · exact ⟨.token .semi, .mark (by decide), fun s => rfl⟩
  · exact ⟨.token .equal, .mark (by decide), fun s => rfl⟩
  · exact ⟨.token .minus, .mark (by decide), fun s => rfl⟩
  · exact ⟨_, .fault (.invalidCharacter c), fun s => rfl⟩

theorem endNumber_ending (read isFloat) :
    ∃ e, Ending (.number read isFloat) e ∧ ∀ s : Lexer, s.endNumber read isFloat = e.apply s := by
  unfold endNumber
  cases isFloat with
  | false =>
    by_cases fits : decimalValue read.reverse < 0x8000000000000000
    · exact ⟨_, .token (.int fits), fun s => if_pos fits⟩
    · exact ⟨_, .fault _, fun s => if_neg fits⟩
  | true =>
    cases value : Binary64.ofDecimal? read.reverse with
    | none => exact ⟨_, .fault _, fun s => by simp only [value]; rfl⟩
    | some x => exact ⟨_, .token (.float value), fun s => by simp only [value]; rfl⟩

theorem endText_acts (isBytes quote read) :
    ∃ e, Acts (.text isBytes quote read) quote e ∧ ∀ s : Lexer, s.endText isBytes read = e.apply s := by
  unfold endText
  cases isBytes with
  | false => exact ⟨_, .closed (.text read), fun s => rfl⟩
  | true =>
    by_cases ascii : (read.reverse.all fun c => decide (c.toNat < 128)) = true
    · exact ⟨_, .closed (.bytes (by simpa using ascii)), fun s => if_pos ascii⟩
    · exact ⟨_, .fault _, fun s => if_neg ascii⟩

theorem settle_ending (mode) : ∃ e, Ending mode e ∧ ∀ s : Lexer, settle { s with mode } = e.apply s := by
  cases mode with
  | between => exact ⟨_, .between, fun s => rfl⟩
  | comment => exact ⟨_, .comment, fun s => rfl⟩
  | letterB => exact ⟨_, .token .letterB, fun s => rfl⟩
  | name read => exact ⟨_, .token (.name read), fun s => rfl⟩
  | number read isFloat =>
    obtain ⟨e, ending, eq⟩ := endNumber_ending read isFloat
    exact ⟨e, ending, fun s => (eq _).trans (e.apply_mode _ s)⟩
  | text | escape => exact ⟨_, .fault .unterminatedString, fun s => rfl⟩

theorem Ending.followed {mode e} (ending : Ending mode e) (busy : mode ≠ .between ∧ mode ≠ .comment) (c) :
    ∃ e', Acts mode c e' ∧ ∀ s : Lexer, (e.apply s >>= fun s => s.start c) = e'.apply s := by
  obtain ⟨next, acts, eq⟩ := start_acts c
  cases ending with
  | between => exact absurd rfl busy.1
  | comment => exact absurd rfl busy.2
  | token settles => exact ⟨_, .settled settles acts, fun s => eq _⟩
  | fault f => exact ⟨_, .fault f, fun s => rfl⟩

theorem step_acts (mode c) : ∃ e, Acts mode c e ∧ ∀ s : Lexer, step { s with mode } c = e.apply s := by
  cases mode with
  | between =>
    obtain ⟨e, acts, eq⟩ := start_acts c
    exact ⟨e, acts, fun s => (eq _).trans (e.apply_mode _ s)⟩
  | comment =>
    by_cases line : c = '\n'
    · subst line
      exact ⟨_, .uncommented, fun s => rfl⟩
    · exact ⟨_, .commented line, fun s => if_neg line⟩
  | letterB =>
    by_cases quote : isQuote c = true
    · exact ⟨_, .quoteB quote, fun s => if_pos quote⟩
    by_cases more : Text.continuesName c = true
    · exact ⟨_, .nameB more, fun s => (if_neg quote).trans (if_pos more)⟩
    obtain ⟨e, acts, eq⟩ := Ending.followed (.token .letterB) ⟨by simp, by simp⟩ c
    exact ⟨e, acts, fun s => ((if_neg quote).trans (if_neg more)).trans (eq s)⟩
  | name read =>
    by_cases more : Text.continuesName c = true
    · exact ⟨_, .named more, fun s => if_pos more⟩
    obtain ⟨e, acts, eq⟩ := Ending.followed (.token (.name read)) ⟨by simp, by simp⟩ c
    exact ⟨e, acts, fun s => (if_neg more).trans (eq s)⟩
  | number read isFloat =>
    by_cases digit : c.isDigit = true
    · exact ⟨_, .digits digit, fun s => if_pos digit⟩
    by_cases gap : c = '_'
    · subst gap
      exact ⟨_, .gap, fun s => rfl⟩
    by_cases point : c = '.'
    · subst point
      exact ⟨_, .point, fun s => rfl⟩
    obtain ⟨last, ending, ends⟩ := endNumber_ending read isFloat
    obtain ⟨e, acts, eq⟩ := ending.followed ⟨by simp, by simp⟩ c
    refine ⟨e, acts, fun s => ?_⟩
    unfold step
    dsimp only
    rw [if_neg digit, if_neg gap, if_neg point, ends, eq]
    exact e.apply_mode _ s
  | text isBytes quote read =>
    by_cases line : c = '\n'
    · exact ⟨_, .fault .unterminatedString, fun s => if_pos line⟩
    by_cases ends : c = quote
    · subst ends
      obtain ⟨e, acts, eq⟩ := endText_acts isBytes c read
      exact ⟨e, acts, fun s => ((if_neg line).trans (if_pos rfl)).trans ((eq _).trans (e.apply_mode _ s))⟩
    by_cases slash : c = '\\'
    · subst slash
      exact ⟨_, .slash, fun s => if_neg ends⟩
    · exact ⟨_, .plain line ends slash, fun s => ((if_neg line).trans (if_neg ends)).trans (if_neg slash)⟩
  | escape isBytes quote read => exact ⟨_, .escaped c, fun s => rfl⟩

theorem Settles.inner {mode tok} (h : Settles mode tok) : tok ≠ .eof := by cases h <;> simp

theorem Acts.inner {mode c e} (h : Acts mode c e) : e.Inner := by
  induction h with
  | mark mem => exact (mark_inner _ mem).2
  | closed literal => cases literal <;> simp [Effect.Inner]
  | settled settles _ ih => exact ⟨settles.inner, ih⟩
  | _ => trivial

/-! ## The depth -/

/-- The depth is that of the tokens found, and none of them ends the input. -/
structure Tidy (s : Lexer) : Prop where
  depth : s.depth = (kinds s.tokens.reverse).foldl nest 0
  inner : ∀ t ∈ s.tokens, t.tok ≠ .eof

section Tidy
variable {s : Lexer}

theorem tidy_add (h : s.Tidy) (inner : tok ≠ .eof) : (s.add tok).Tidy where
  depth := by
    show nest s.depth tok = _
    rw [h.depth]
    simp [add, push, kinds]
  inner t mem := by
    obtain rfl | mem := List.mem_cons.1 mem
    · exact inner
    · exact h.inner t mem

theorem tidy_newline (h : s.Tidy) : s.newline.Tidy := by
  unfold newline
  split
  · exact ⟨h.depth, h.inner⟩
  · have added := tidy_add h (show Tok.newline ≠ .eof by simp)
    exact ⟨added.depth, added.inner⟩

theorem tidy_apply (h : s.Tidy) {e : Effect} (inner : e.Inner) {t : Lexer} (next : e.apply s = .ok t) : t.Tidy := by
  induction e generalizing s with
  | endLine => exact Except.ok.inj next ▸ tidy_newline h
  | wait mode => exact Except.ok.inj next ▸ ⟨h.depth, h.inner⟩
  | token tok => exact Except.ok.inj next ▸ tidy_add h inner
  | ending tok e ih => exact ih (tidy_add h inner.1) inner.2 next
  | fault f => cases next

theorem tidy_step (h : s.Tidy) {t : Lexer} (next : s.step c = .ok t) : t.Tidy := by
  obtain ⟨e, acts, eq⟩ := step_acts s.mode c
  exact tidy_apply h acts.inner ((eq s).symm.trans next)

theorem tidy_run (h : s.Tidy) (next : s.run source = .ok t) : t.Tidy := by
  induction source generalizing s with
  | nil => exact Except.ok.inj next ▸ h
  | cons c source ih =>
    obtain ⟨mid, first, second⟩ := bind_eq_ok next
    exact ih (tidy_step h first) second

theorem tidy_settle (h : s.Tidy) {t : Lexer} (next : s.settle = .ok t) : t.Tidy := by
  obtain ⟨e, ending, eq⟩ := settle_ending s.mode
  refine tidy_apply h ?_ ((eq s).symm.trans next)
  generalize s.mode = mode at ending
  cases ending with
  | token settles => exact settles.inner
  | _ => trivial

end Tidy

/-! ## After other tokens -/

/-- The scanner `k` lines further down, after the tokens `before` (newest first). -/
def after (k : Nat) (before : List Token) (s : Lexer) : Lexer :=
  ⟨s.mode, s.line + k, s.depth, s.tokens.map (Token.shift k) ++ before⟩

/-- The tokens end a line. -/
def Whole (before : List Token) : Prop := ∀ t ∈ before.head?, t.tok = .newline

section After
variable {s : Lexer} {k : Nat} {before : List Token}

theorem atLineStart_after (whole : Whole before) : (s.after k before).atLineStart = s.atLineStart := by
  obtain ⟨mode, line, depth, tokens⟩ := s
  cases tokens with
  | cons t tokens => rfl
  | nil =>
    cases before with
    | nil => rfl
    | cons t before => exact beq_iff_eq.2 (whole t rfl)

theorem after_newline (whole : Whole before) : (s.after k before).newline = s.newline.after k before := by
  have line : s.line + k + 1 = s.line + 1 + k := by omega
  unfold newline
  rw [atLineStart_after whole]
  show (if (s.depth > 0 || s.atLineStart) = true then _ else _) = _
  split
  · simp only [after, line]
  · simp only [after, push, line, List.map_cons, List.cons_append, Token.shift]

theorem after_apply (whole : Whole before) {e : Effect} {t : Lexer} (next : e.apply s = .ok t) :
    e.apply (s.after k before) = .ok (t.after k before) := by
  induction e generalizing s with
  | endLine =>
    cases next
    exact congrArg Except.ok (after_newline whole)
  | ending tok e ih => exact ih next
  | fault f => cases next
  | _ =>
    cases next
    rfl

theorem after_step (whole : Whole before) {t : Lexer} (next : s.step c = .ok t) :
    (s.after k before).step c = .ok (t.after k before) := by
  obtain ⟨e, -, eq⟩ := step_acts s.mode c
  exact (eq (s.after k before)).trans (after_apply whole ((eq s).symm.trans next))

theorem after_run (whole : Whole before) (next : s.run source = .ok t) :
    (s.after k before).run source = .ok (t.after k before) := by
  induction source generalizing s with
  | nil =>
    cases next
    rfl
  | cons c source ih =>
    obtain ⟨mid, first, second⟩ := bind_eq_ok next
    show ((s.after k before).step c >>= fun u => u.run source) = _
    rw [after_step whole first]
    exact ih second

theorem after_settle (whole : Whole before) {t : Lexer} (next : s.settle = .ok t) :
    (s.after k before).settle = .ok (t.after k before) := by
  obtain ⟨e, -, eq⟩ := settle_ending s.mode
  exact (eq (s.after k before)).trans (after_apply whole ((eq s).symm.trans next))

/-- The tokens with the last line ended. -/
def closed (s : Lexer) : List Token := if s.atLineStart then s.tokens else ⟨.newline, s.line⟩ :: s.tokens

theorem finish_eq : s.finish = s.closed.reverse ++ [⟨.eof, s.line⟩] := by
  unfold finish closed
  dsimp only
  split <;> exact List.reverse_cons

theorem closed_whole : Whole s.closed := by
  unfold closed
  split
  · next start =>
    intro t first
    unfold atLineStart at start
    obtain ⟨rest, same⟩ := List.head?_eq_some_iff.1 first
    rw [same] at start
    exact beq_iff_eq.1 start
  · intro t first
    cases first
    rfl

theorem closed_after (whole : Whole before) : (s.after k before).closed = s.closed.map (Token.shift k) ++ before := by
  unfold closed
  rw [atLineStart_after whole]
  split <;> rfl

theorem finish_after (whole : Whole before) :
    (s.after k before).finish = before.reverse ++ s.finish.map (Token.shift k) := by
  rw [finish_eq, finish_eq, closed_after whole]
  simp [after, Token.shift]

end After

theorem start_newline (s : Lexer) : s.start '\n' = .ok s.newline := if_pos rfl

theorem step_newline {s t : Lexer} (settled : s.settle = .ok t) : s.step '\n' = .ok t.newline := by
  obtain ⟨mode, line, depth, tokens⟩ := s
  cases mode with
  | letterB =>
    cases settled
    unfold step
    dsimp only
    rw [if_neg (by decide), if_neg (by decide), start_newline]
  | name read =>
    cases settled
    unfold step
    dsimp only
    rw [if_neg (by decide), start_newline]
  | number read isFloat =>
    unfold step
    dsimp only
    have ended : endNumber ⟨.number read isFloat, line, depth, tokens⟩ read isFloat = .ok t := settled
    rw [if_neg (by decide), if_neg (by decide), if_neg (by decide), ended]
    rfl
  | text | escape => cases settled
  | between | comment =>
    cases settled
    rfl

theorem newline_of_depth {s : Lexer} (outside : s.depth = 0) : s.newline = ⟨.between, s.line + 1, 0, s.closed⟩ := by
  obtain ⟨mode, line, depth, tokens⟩ := s
  obtain rfl : depth = 0 := outside
  unfold newline closed
  split
  · next start =>
    have start : atLineStart ⟨mode, line, 0, tokens⟩ = true := by simpa using start
    rw [if_pos start]
  · next start =>
    have start : ¬atLineStart ⟨mode, line, 0, tokens⟩ = true := by simpa using start
    rw [if_neg start]
    rfl

theorem scan_ok (h : scan source = .ok ts) : ∃ s t, run {} source = .ok s ∧ s.settle = .ok t ∧ ts = t.finish := by
  obtain ⟨s, first, second⟩ := bind_eq_ok h
  obtain ⟨t, settled, last⟩ := bind_eq_ok second
  exact ⟨s, t, first, settled, (Except.ok.inj last).symm⟩

theorem run_append (s : Lexer) (a b) : s.run (a ++ b) = s.run a >>= fun t => t.run b :=
  List.foldlM_append

theorem settle_line {s t : Lexer} (settled : s.settle = .ok t) : t.line = s.line := by
  obtain ⟨e, ending, eq⟩ := settle_ending s.mode
  have done : e.apply s = .ok t := (eq s).symm.trans settled
  generalize s.mode = mode at ending
  cases ending with
  | fault f => cases done
  | _ => exact Except.ok.inj done ▸ rfl

theorem scan_join {s t u v : Lexer} (first : run {} a = .ok s) (settled : s.settle = .ok t) (closed : t.depth = 0)
    (second : run {} b = .ok u) (settled' : u.settle = .ok v) :
    scan (a ++ '\n' :: b) = .ok (t.closed.reverse ++ v.finish.map (Token.shift t.line)) := by
  have joined : run {} (a ++ '\n' :: b) = .ok (u.after t.line t.closed) := by
    rw [run_append, first]
    show (s.step '\n' >>= fun s => s.run b) = _
    rw [step_newline settled, newline_of_depth closed]
    have start : (⟨.between, t.line + 1, 0, t.closed⟩ : Lexer) = after t.line t.closed {} := by
      rw [Nat.add_comm]
      rfl
    rw [start]
    exact after_run closed_whole second
  unfold scan
  rw [joined]
  show (Lexer.settle _ >>= _) = _
  rw [after_settle closed_whole settled']
  exact congrArg Except.ok (finish_after closed_whole)

end Lexer
end MonitoredVm
