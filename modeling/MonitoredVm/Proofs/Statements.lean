import MonitoredVm.Proofs.Grammar

/-!
# Statements and modules

The grammar above expressions. A statement records the line of its first token, so it is spelled by tokens with their
lines. A definition runs to the end of its line: only an action can stand in front of a semicolon.

Main statements: a token list is parsed into the statements that its lines spell and no others
(`parseTokens_ok_iff`); spelling commutes with moving every line by a constant (`Module.shift`), and the tokens of two
modules spell the statements of both (`Module.append`).
-/

namespace MonitoredVm

open List

namespace Grammar

/-- Actions; `inside` a function they may return. -/
inductive Simple (inside : Bool) : Action → List Tok → Prop
  | pass : Simple inside .pass [.name "pass"]
  | delete (n : String) : Simple inside (.delete n) [.name "del", .name n]
  | raise {n} {type : ExcType} (known : ExcType.ofName? n = some type) :
    Simple inside (.raise type none) [.name "raise", .name n]
  | raiseEmpty {n} {type : ExcType} (known : ExcType.ofName? n = some type) :
    Simple inside (.raise type none) [.name "raise", .name n, .lparen, .rparen]
  | raiseWith {n} {type : ExcType} {e ts} (known : ExcType.ofName? n = some type) :
    Expression e ts → Simple inside (.raise type (some e)) (.name "raise" :: .name n :: .lparen :: ts ++ [.rparen])
  | ret : inside = true → Simple inside (.ret none) [.name "return"]
  | retWith {e ts} : inside = true → Expression e ts → Simple inside (.ret (some e)) (.name "return" :: ts)
  | assign {target e ts} :
    isKeyword target = false → Expression e ts → Simple inside (.assign target e) (.name target :: .equal :: ts)
  | eval {e ts} : Expression e ts → Simple inside (.eval e) ts

/-- Parameters, those with defaults last, and the closing parenthesis; `defaulted` after a default. -/
inductive Parameters : Bool → List Param → List Tok → Prop
  | close {defaulted} : Parameters defaulted [] [.rparen]
  | last {name} : Parameters false [{ name }] [.name name, .rparen]
  | more {name ps ts} : Parameters false ps ts → Parameters false ({ name } :: ps) (.name name :: .comma :: ts)
  | lastDefault {defaulted name e ts} :
    Expression e ts → Parameters defaulted [{ name, default := some e }] (.name name :: .equal :: ts ++ [.rparen])
  | moreDefault {defaulted name e ps ts us} : Expression e ts → Parameters true ps us →
    Parameters defaulted ({ name, default := some e } :: ps) (.name name :: .equal :: ts ++ .comma :: us)

mutual

/-- A statement inside the functions `scopes`. -/
inductive Statement (file : String) : List String → Stmt → List Token → Prop
  | act {scopes action t ts} :
    Simple (!scopes.isEmpty) action (kinds (t :: ts)) → Statement file scopes (.act t.line action) (t :: ts)
  | define {scopes name params body ts us line l m n} :
    Parameters false params (kinds ts) → Line file (qualify scopes name :: scopes) body us →
    Statement file scopes (.define line ⟨name, qualify scopes name, file, line, params, body⟩)
      (⟨.name "def", line⟩ :: ⟨.name name, l⟩ :: ⟨.lparen, m⟩ :: (ts ++ ⟨.colon, n⟩ :: us))

/-- The statements of a line, without the newline that ends it. -/
inductive Line (file : String) : List String → List Stmt → List Token → Prop
  | last {scopes s ts} : Statement file scopes s ts → Line file scopes [s] ts
  | closed {scopes line l action ts} :
    Statement file scopes (.act line action) ts → Line file scopes [.act line action] (ts ++ [⟨.semi, l⟩])
  | more {scopes line l action ss ts us} : Statement file scopes (.act line action) ts → Line file scopes ss us →
    Line file scopes (.act line action :: ss) (ts ++ ⟨.semi, l⟩ :: us)

end

/-- Lines, each ended by a newline. -/
inductive Module (file : String) : List Stmt → List Token → Prop
  | nil : Module file [] []
  | cons {ss rest ts us l} :
    Line file [] ss ts → Module file rest us → Module file (ss ++ rest) (ts ++ ⟨.newline, l⟩ :: us)

/-! ## What the parser reads -/

section Soundness
variable {c : ParseContext} {n : Nat}

theorem sound_parseRaise (read : Action.parseRaise c n ts = .ok (a, rest)) :
    ∃ used, ts = used ++ rest ∧ ∀ inside, Simple inside a (.name "raise" :: kinds used) := by
  obtain ⟨⟨typeName, mid⟩, first, second⟩ := bind_eq_ok read
  obtain ⟨line, rfl⟩ := name_ok first
  dsimp only at second
  split at second
  · cases second
  · next type known =>
    split at second
    · next l m after =>
      cases second
      exact ⟨[⟨.name typeName, line⟩, ⟨.lparen, l⟩, ⟨.rparen, m⟩], rfl, fun inside => .raiseEmpty known⟩
    · next l after _ =>
      obtain ⟨⟨message, mid⟩, third, fourth⟩ := bind_eq_ok second
      obtain ⟨after', last, same⟩ := bind_eq_ok fourth
      cases same
      obtain ⟨used, rfl, expression, -⟩ := (sound c n).parse third
      obtain ⟨t, rfl, closes⟩ := expect_ok last
      refine ⟨⟨.name typeName, line⟩ :: ⟨.lparen, l⟩ :: used ++ [t], by simp, fun inside => ?_⟩
      have spelled : Simple inside _ _ := .raiseWith known expression
      simpa [closes] using spelled
    · cases second
      exact ⟨[⟨.name typeName, line⟩], rfl, fun inside => .raise known⟩

theorem sound_parseReturn (read : Action.parseReturn c n ts = .ok (a, rest)) :
    ∃ used, ts = used ++ rest ∧ Simple (!c.scopes.isEmpty) a (.name "return" :: kinds used) := by
  unfold Action.parseReturn at read
  split at read
  · cases read
  · next inside =>
    replace inside : (!c.scopes.isEmpty) = true := by simpa using inside
    split at read
    case h_5 =>
      obtain ⟨⟨value, mid⟩, first, second⟩ := bind_eq_ok read
      cases second
      obtain ⟨used, rfl, expression, -⟩ := (sound c n).parse first
      exact ⟨used, rfl, .retWith inside expression⟩
    all_goals
      cases read
      exact ⟨[], rfl, .ret inside⟩

theorem sound_action (read : Action.parse c n ts = .ok (a, rest)) :
    ∃ used, ts = used ++ rest ∧ Simple (!c.scopes.isEmpty) a (kinds used) := by
  unfold Action.parse at read
  split at read
  · next line after =>
    cases read
    exact ⟨[⟨.name "pass", line⟩], rfl, .pass⟩
  · next line after =>
    obtain ⟨⟨name, mid⟩, first, second⟩ := bind_eq_ok read
    cases second
    obtain ⟨l, rfl⟩ := name_ok first
    exact ⟨[⟨.name "del", line⟩, ⟨.name name, l⟩], rfl, .delete name⟩
  · next line after =>
    obtain ⟨used, rfl, simple⟩ := sound_parseRaise read
    exact ⟨⟨.name "raise", line⟩ :: used, rfl, simple _⟩
  · next line after =>
    obtain ⟨used, rfl, simple⟩ := sound_parseReturn read
    exact ⟨⟨.name "return", line⟩ :: used, rfl, simple⟩
  · next target line l after _ _ _ _ =>
    split at read
    · cases read
    · next free =>
      obtain ⟨⟨value, mid⟩, first, second⟩ := bind_eq_ok read
      cases second
      obtain ⟨used, rfl, expression, -⟩ := (sound c n).parse first
      exact ⟨⟨.name target, line⟩ :: ⟨.equal, l⟩ :: used, rfl, .assign (Bool.eq_false_iff.2 free) expression⟩
  · obtain ⟨⟨value, mid⟩, first, second⟩ := bind_eq_ok read
    cases second
    obtain ⟨used, rfl, expression, -⟩ := (sound c n).parse first
    exact ⟨used, rfl, .eval expression⟩

/-- Whether a parameter with a default has been read. -/
def defaulted (read : List Param) : Bool := read.any (·.default.isSome)

theorem sound_parameters {read all ts rest} (done : Param.parseAll c n read ts = .ok (all, rest)) :
    ∃ used ps, ts = used ++ rest ∧ all = read.reverse ++ ps ∧ Parameters (defaulted read) ps (kinds used) := by
  induction n generalizing read ts with
  | zero => cases done
  | succ n ih =>
    rw [Param.parseAll.eq_def] at done
    dsimp only at done
    split at done
    · next line after =>
      cases done
      exact ⟨[⟨.rparen, line⟩], [], rfl, by simp, .close⟩
    · next other =>
      clear other
      obtain ⟨⟨name, mid⟩, first, second⟩ := bind_eq_ok done
      obtain ⟨line, rfl⟩ := name_ok first
      dsimp only at second
      split at second
      · next l after =>
        obtain ⟨⟨e, mid⟩, parsed, last⟩ := bind_eq_ok second
        obtain ⟨used, rfl, expression, -⟩ := (sound c n).parse parsed
        dsimp only [bind, pure, Except.bind, Except.pure] at last
        split at last
        · next m after =>
          obtain ⟨more, ps, rfl, rfl, others⟩ := ih last
          refine ⟨⟨.name name, line⟩ :: ⟨.equal, l⟩ :: used ++ ⟨.comma, m⟩ :: more, ⟨name, some e⟩ :: ps, by simp, by simp, ?_⟩
          have spelled : Parameters (defaulted read) (⟨name, some e⟩ :: ps) _ := .moreDefault expression others
          simpa using spelled
        · obtain ⟨after, closes, same⟩ := bind_eq_ok last
          cases same
          obtain ⟨t, rfl, paren⟩ := expect_ok closes
          refine ⟨⟨.name name, line⟩ :: ⟨.equal, l⟩ :: used ++ [t], [⟨name, some e⟩], by simp, by simp, ?_⟩
          have spelled : Parameters (defaulted read) [⟨name, some e⟩] _ := .lastDefault expression
          simpa [paren] using spelled
      · next other =>
        clear other
        split at second
        · cases second
        · next none =>
          replace none : defaulted read = false := Bool.eq_false_iff.2 none
          rw [none]
          dsimp only [bind, pure, Except.bind, Except.pure] at second
          split at second
          · next m after =>
            obtain ⟨more, ps, rfl, rfl, others⟩ := ih second
            have plain : defaulted (⟨name, Option.none⟩ :: read) = false := none
            rw [plain] at others
            exact ⟨⟨.name name, line⟩ :: ⟨.comma, m⟩ :: more, ⟨name, Option.none⟩ :: ps, by simp, by simp, .more others⟩
          · obtain ⟨after, closes, same⟩ := bind_eq_ok second
            cases same
            obtain ⟨t, rfl, paren⟩ := expect_ok closes
            refine ⟨[⟨.name name, line⟩, t], [⟨name, Option.none⟩], by simp, by simp, ?_⟩
            simpa [paren] using (.last : Parameters false [⟨name, Option.none⟩] _)

def EndsLine (ts : List Token) : Prop := ∃ line rest, ts = ⟨.newline, line⟩ :: rest

theorem Simple.starts (h : Simple inside a ts) : ∃ t us, ts = t :: us ∧ Grammar.starts t = true := by
  cases h with
  | eval expression => exact expression.starts
  | _ => exact ⟨_, _, rfl, rfl⟩

/-- What the functions of the statement parser read with fuel `n`. -/
structure SoundStatements (n : Nat) : Prop where
  parse : ∀ {c ts s rest}, Stmt.parse c n ts = .ok (s, rest) →
    ∃ used, ts = used ++ rest ∧ Statement c.filename c.scopes s used ∧ ((∃ line a, s = .act line a) ∨ EndsLine rest)
  definition : ∀ {c line ts f rest}, Stmt.definition c n line ts = .ok (f, rest) →
    ∃ used, ts = used ++ rest ∧ Statement c.filename c.scopes (.define line f) (⟨.name "def", line⟩ :: used) ∧
      EndsLine rest
  parseLine : ∀ {c read ts p}, Stmt.parseLine c n read ts = .ok p →
    ∃ used ss, ts = used ++ p.lineEnd :: p.rest ∧ p.lineEnd.tok = .newline ∧ p.stmts = read.reverse ++ ss ∧
      Line c.filename c.scopes ss used

theorem soundStatements_zero : SoundStatements 0 := by
  constructor <;> intros <;> contradiction

theorem sound_stmt (h : SoundStatements n) (read : Stmt.parse c (n + 1) ts = .ok (s, rest)) :
    ∃ used, ts = used ++ rest ∧ Statement c.filename c.scopes s used ∧
      ((∃ line a, s = .act line a) ∨ EndsLine rest) := by
  rw [Stmt.parse.eq_def] at read
  dsimp only at read
  split at read
  · next line after =>
    obtain ⟨⟨f, mid⟩, first, second⟩ := bind_eq_ok read
    cases second
    obtain ⟨used, rfl, statement, ends⟩ := h.definition first
    exact ⟨⟨.name "def", line⟩ :: used, rfl, statement, .inr ends⟩
  · obtain ⟨⟨a, mid⟩, first, second⟩ := bind_eq_ok read
    cases second
    obtain ⟨used, rfl, simple⟩ := sound_action first
    obtain ⟨t, us, some, -⟩ := simple.starts
    cases used with
    | nil => cases some
    | cons t used => exact ⟨t :: used, rfl, .act simple, .inl ⟨_, _, rfl⟩⟩

theorem sound_definition (h : SoundStatements n) (read : Stmt.definition c (n + 1) line ts = .ok (f, rest)) :
    ∃ used, ts = used ++ rest ∧ Statement c.filename c.scopes (.define line f) (⟨.name "def", line⟩ :: used) ∧
      EndsLine rest := by
  rw [Stmt.definition.eq_def] at read
  obtain ⟨⟨name, mid⟩, first, second⟩ := bind_eq_ok read
  obtain ⟨mid', opens, third⟩ := bind_eq_ok second
  obtain ⟨⟨params, mid''⟩, parameters, fourth⟩ := bind_eq_ok third
  obtain ⟨mid, colon, fifth⟩ := bind_eq_ok fourth
  obtain ⟨body, lines, last⟩ := bind_eq_ok fifth
  cases last
  obtain ⟨l, rfl⟩ := name_ok first
  obtain ⟨⟨tok, m⟩, rfl, paren⟩ := expect_ok opens
  obtain rfl : tok = .lparen := paren
  obtain ⟨used, ps, rfl, rfl, spelled⟩ := sound_parameters parameters
  obtain ⟨⟨tok, k⟩, rfl, kind⟩ := expect_ok colon
  obtain rfl : tok = .colon := kind
  obtain ⟨used', ss, rfl, newline, stmts, body'⟩ := h.parseLine lines
  refine ⟨⟨.name name, l⟩ :: ⟨.lparen, m⟩ :: (used ++ ⟨.colon, k⟩ :: used'), by simp, ?_, ?_⟩
  · rw [stmts]
    exact .define spelled body'
  · obtain ⟨stmts, ⟨tok, e⟩, rest⟩ := body
    obtain rfl : tok = .newline := newline
    exact ⟨e, rest, rfl⟩

theorem sound_parseLine (h : SoundStatements n) {read ts p} (done : Stmt.parseLine c (n + 1) read ts = .ok p) :
    ∃ used ss, ts = used ++ p.lineEnd :: p.rest ∧ p.lineEnd.tok = .newline ∧ p.stmts = read.reverse ++ ss ∧
      Line c.filename c.scopes ss used := by
  rw [Stmt.parseLine.eq_def] at done
  obtain ⟨⟨s, mid⟩, first, second⟩ := bind_eq_ok done
  obtain ⟨used, rfl, statement, kind⟩ := h.parse first
  dsimp only at second
  split at second
  · next line after =>
    cases second
    exact ⟨used, [s], rfl, rfl, by simp, .last statement⟩
  · next other =>
    obtain ⟨after, semi, third⟩ := bind_eq_ok second
    obtain ⟨⟨tok, l⟩, rfl, here⟩ := expect_ok semi
    obtain rfl : tok = .semi := here
    -- After a definition the newline comes next, so what stands before the semicolon is an action.
    obtain ⟨line, a, rfl⟩ : ∃ line a, s = .act line a := by
      refine kind.resolve_right fun ends => ?_
      obtain ⟨line, rest, same⟩ := ends
      exact other line rest same
    clear other
    split at third
    · next m after =>
      cases third
      exact ⟨used ++ [⟨.semi, l⟩], [.act line a], by simp, rfl, by simp, .closed statement⟩
    · obtain ⟨more, ss, rfl, newline, stmts, others⟩ := h.parseLine third
      exact ⟨used ++ ⟨.semi, l⟩ :: more, .act line a :: ss, by simp, newline, by simp [stmts], .more statement others⟩

theorem soundStatements (n) : SoundStatements n := by
  induction n with
  | zero => exact soundStatements_zero
  | succ n h => exact ⟨sound_stmt h, sound_definition h, sound_parseLine h⟩

theorem sound_parseLines (h : c.scopes = []) (read : Script.parseLines c budget n ts = .ok stmts) :
    ∃ used rest, ts = used ++ rest ∧ Module c.filename stmts used ∧ (rest = [] ∨ ∃ line more, rest = ⟨.eof, line⟩ :: more) := by
  induction n generalizing ts stmts with
  | zero => cases read
  | succ n ih =>
    rw [Script.parseLines.eq_def] at read
    dsimp only at read
    split at read
    · cases read
      exact ⟨[], [], rfl, .nil, .inl rfl⟩
    · next line more =>
      cases read
      exact ⟨[], _, rfl, .nil, .inr ⟨line, more, rfl⟩⟩
    · obtain ⟨p, first, second⟩ := bind_eq_ok read
      obtain ⟨rest, others, last⟩ := bind_eq_ok second
      cases last
      obtain ⟨used, ss, rfl, newline, stmts, lines⟩ := (soundStatements budget).parseLine first
      obtain ⟨used', tail, same, module, ends⟩ := ih others
      obtain ⟨all, ⟨tok, l⟩, after⟩ := p
      obtain rfl : tok = .newline := newline
      obtain rfl : all = ss := stmts
      obtain rfl : after = used' ++ tail := same
      rw [h] at lines
      exact ⟨used ++ ⟨.newline, l⟩ :: used', tail, by simp, .cons lines module, ends⟩

end Soundness

/-! ## What the parser accepts -/

/-- What ends a statement comes next. -/
def Separated (ts : List Token) : Prop := ∃ tok line rest, ts = ⟨tok, line⟩ :: rest ∧ (tok = .newline ∨ tok = .semi)

theorem Separated.lacks (h : Separated ts) (newline : tok ≠ .newline) (semi : tok ≠ .semi) : Lacks tok ts := by
  obtain ⟨kind, line, rest, rfl, rfl | rfl⟩ := h
  · exact lacks_cons newline.symm
  · exact lacks_cons semi.symm

theorem Separated.ends (h : Separated ts) : Ends ts := h.lacks (by simp) (by simp)

def openers : List String := ["def", "del", "pass", "raise", "return"]

theorem isKeyword_of_mem_openers (h : m ∈ openers) : isKeyword m = true := by
  simp only [openers, mem_cons, not_mem_nil, or_false] at h
  obtain rfl | rfl | rfl | rfl | rfl := h <;> rfl

theorem Expression.opener (h : Expression e ts) (first : ts.head? = some (.name m)) : m ∉ openers := by
  obtain ⟨atom, -⟩ := h
  obtain ⟨t, us, rfl, -⟩ := atom.starts
  obtain rfl : t = .name m := Option.some.inj first
  cases atom with
  | name free =>
    intro mem
    rw [isKeyword_of_mem_openers mem] at free
    cases free
  | _ => simp [openers]

section Completeness
variable {c : ParseContext} {n : Nat}

theorem action_eval (opener : ∀ m line after, ts = ⟨.name m, line⟩ :: after → m ∉ openers)
    (unnamed : ∀ t after, ts = t :: after → Lacks .equal after) (parsed : Expr.parse c n ts = .ok (v, rest)) :
    Action.parse c n ts = .ok (.eval v, rest) := by
  unfold Action.parse
  split
  · exact absurd (by simp [openers]) (opener _ _ _ rfl)
  · exact absurd (by simp [openers]) (opener _ _ _ rfl)
  · exact absurd (by simp [openers]) (opener _ _ _ rfl)
  · exact absurd (by simp [openers]) (opener _ _ _ rfl)
  · exact absurd rfl (unnamed _ _ rfl _ rfl)
  · rw [parsed]
    rfl

theorem action_assign (free : isKeyword target = false) (parsed : Expr.parse c n ts = .ok (v, rest)) :
    Action.parse c n (⟨.name target, line⟩ :: ⟨.equal, l⟩ :: ts) = .ok (.assign target v, rest) := by
  unfold Action.parse
  split
  case h_5 same =>
    cases same
    rw [if_neg (Bool.eq_false_iff.1 free), parsed]
    rfl
  case h_6 other => exact absurd rfl (other _ _ _ _)
  all_goals
    next same =>
    cases same
    cases free

theorem return_with (inside : (!c.scopes.isEmpty) = true) (first : starts t.tok = true)
    (parsed : Expr.parse c n (t :: ts) = .ok (v, rest)) :
    Action.parseReturn c n (t :: ts) = .ok (.ret (some v), rest) := by
  unfold Action.parseReturn
  rw [if_neg (by simpa using inside)]
  split
  case h_5 =>
    rw [parsed]
    rfl
  all_goals
    next same =>
    cases same
    try cases first

theorem return_plain (inside : (!c.scopes.isEmpty) = true) (ends : Separated rest) :
    Action.parseReturn c n rest = .ok (.ret none, rest) := by
  obtain ⟨tok, line, rest, rfl, rfl | rfl⟩ := ends <;>
  · unfold Action.parseReturn
    rw [if_neg (by simpa using inside)]

theorem raise_plain (known : ExcType.ofName? m = some type) (ends : Ends rest) :
    Action.parseRaise c n (⟨.name m, line⟩ :: rest) = .ok (.raise type none, rest) := by
  unfold Action.parseRaise ParseContext.name
  dsimp only [bind, Except.bind]
  rw [known]
  dsimp only
  split
  · exact absurd rfl (ends _ rfl)
  · exact absurd rfl (ends _ rfl)
  · rfl

theorem raise_empty (known : ExcType.ofName? m = some type) :
    Action.parseRaise c n (⟨.name m, line⟩ :: ⟨.lparen, l⟩ :: ⟨.rparen, k⟩ :: rest) = .ok (.raise type none, rest) := by
  unfold Action.parseRaise ParseContext.name
  dsimp only [bind, Except.bind]
  rw [known]
  rfl

theorem raise_with (known : ExcType.ofName? m = some type) (first : Lacks .rparen ts)
    (parsed : Expr.parse c n ts = .ok (v, ⟨.rparen, k⟩ :: rest)) :
    Action.parseRaise c n (⟨.name m, line⟩ :: ⟨.lparen, l⟩ :: ts) = .ok (.raise type (some v), rest) := by
  unfold Action.parseRaise ParseContext.name
  dsimp only [bind, Except.bind]
  rw [known]
  dsimp only
  split
  · next same =>
    cases same
    exact absurd rfl (first _ rfl)
  · next same =>
    cases same
    rw [parsed]
    dsimp only
    rw [expect_same]
    rfl
  · next other => exact absurd rfl (other _ _)

theorem complete_action (spelled : kinds ts = us) (simple : Simple (!c.scopes.isEmpty) a us) (ends : Separated rest)
    (fits : 4 * ts.length ≤ n) : Action.parse c n (ts ++ rest) = .ok (a, rest) := by
  cases simple with
  | pass =>
    obtain ⟨line, rfl⟩ := kinds_eq_singleton spelled
    rfl
  | delete m =>
    obtain ⟨line, after, rfl, more⟩ := kinds_eq_cons spelled
    obtain ⟨l, rfl⟩ := kinds_eq_singleton more
    rfl
  | raise known =>
    obtain ⟨line, after, rfl, more⟩ := kinds_eq_cons spelled
    obtain ⟨l, rfl⟩ := kinds_eq_singleton more
    exact raise_plain known ends.ends
  | raiseEmpty known =>
    obtain ⟨line, after, rfl, more⟩ := kinds_eq_cons spelled
    obtain ⟨l, after, rfl, more'⟩ := kinds_eq_cons more
    obtain ⟨m, after, rfl, more''⟩ := kinds_eq_cons more'
    obtain ⟨k, rfl⟩ := kinds_eq_singleton more''
    exact raise_empty known
  | raiseWith known expression =>
    obtain ⟨line, after, rfl, more⟩ := kinds_eq_cons spelled
    obtain ⟨l, after, rfl, more'⟩ := kinds_eq_cons more
    obtain ⟨m, after, rfl, more''⟩ := kinds_eq_cons more'
    simp only [length_cons] at fits
    obtain ⟨k, -, parsed⟩ := (complete c n).beforeLast more'' expression (by simp) (by omega) rest
    simp only [cons_append]
    exact raise_with known (lacks_of_expression more'' expression rfl) parsed
  | ret inside =>
    obtain ⟨line, rfl⟩ := kinds_eq_singleton spelled
    exact return_plain inside ends
  | retWith inside expression =>
    obtain ⟨line, after, rfl, rfl⟩ := kinds_eq_cons spelled
    obtain ⟨u, us, same, first⟩ := expression.starts
    obtain ⟨l, more, rfl, -⟩ := kinds_eq_cons same
    rw [length_cons] at fits
    exact return_with inside first ((complete c n).parse rfl expression ends.ends (by omega))
  | assign free expression =>
    obtain ⟨line, after, rfl, more⟩ := kinds_eq_cons spelled
    obtain ⟨l, after, rfl, rfl⟩ := kinds_eq_cons more
    simp only [length_cons] at fits
    exact action_assign free ((complete c n).parse rfl expression ends.ends (by omega))
  | eval expression =>
    subst spelled
    refine action_eval (fun m line after same => expression.opener ?_)
      (unnamed_of_expression rfl expression (ends.lacks (by simp) (by simp)))
      ((complete c n).parse rfl expression ends.ends fits)
    obtain ⟨u, us, more, -⟩ := expression.starts
    obtain ⟨l, more', rfl, -⟩ := kinds_eq_cons more
    obtain rfl : u = .name m := congrArg Token.tok (List.cons.inj same).1
    rfl

theorem name_same : c.name (⟨.name m, line⟩ :: rest) = .ok (m, rest) := rfl

section Parameter
variable {read : List Param} {m : String} {line k l : Nat} {ts rest : List Token} {v : Expr}

theorem parameter_last (plain : defaulted read = false) :
    Param.parseAll c (n + 1) read (⟨.name m, line⟩ :: ⟨.rparen, l⟩ :: rest) =
      .ok (((⟨m, none⟩ : Param) :: read).reverse, rest) := by
  unfold defaulted at plain
  rw [Param.parseAll.eq_def]
  dsimp only
  rw [name_same]
  dsimp only [bind, Except.bind]
  rw [if_neg (Bool.eq_false_iff.1 plain)]
  dsimp only [pure, Except.pure]
  rw [expect_same]

theorem parameter_more (plain : defaulted read = false) :
    Param.parseAll c (n + 1) read (⟨.name m, line⟩ :: ⟨.comma, l⟩ :: rest) =
      Param.parseAll c n (⟨m, none⟩ :: read) rest := by
  unfold defaulted at plain
  rw [Param.parseAll.eq_def]
  dsimp only
  rw [name_same]
  dsimp only [bind, Except.bind]
  rw [if_neg (Bool.eq_false_iff.1 plain)]
  rfl

theorem parameter_lastDefault (parsed : Expr.parse c n ts = .ok (v, ⟨.rparen, l⟩ :: rest)) :
    Param.parseAll c (n + 1) read (⟨.name m, line⟩ :: ⟨.equal, k⟩ :: ts) =
      .ok (((⟨m, some v⟩ : Param) :: read).reverse, rest) := by
  rw [Param.parseAll.eq_def]
  dsimp only
  rw [name_same]
  dsimp only [bind, Except.bind]
  rw [parsed]
  dsimp only [pure, Except.pure]
  rw [expect_same]

theorem parameter_moreDefault (parsed : Expr.parse c n ts = .ok (v, ⟨.comma, l⟩ :: rest)) :
    Param.parseAll c (n + 1) read (⟨.name m, line⟩ :: ⟨.equal, k⟩ :: ts) =
      Param.parseAll c n (⟨m, some v⟩ :: read) rest := by
  rw [Param.parseAll.eq_def]
  dsimp only
  rw [name_same]
  dsimp only [bind, Except.bind]
  rw [parsed]
  rfl

end Parameter

theorem complete_parameters {read ps ts rest us} (spelled : kinds ts = us) {d} (before : defaulted read = d)
    (parameters : Parameters d ps us) (fits : 4 * ts.length < n) :
    Param.parseAll c n read (ts ++ rest) = .ok (read.reverse ++ ps, rest) := by
  induction n generalizing read ps ts us d with
  | zero => exact absurd fits (Nat.not_lt_zero _)
  | succ n ih =>
    cases parameters with
    | close =>
      obtain ⟨line, rfl⟩ := kinds_eq_singleton spelled
      simp [Param.parseAll]
    | last =>
      obtain ⟨line, after, rfl, more⟩ := kinds_eq_cons spelled
      obtain ⟨l, rfl⟩ := kinds_eq_singleton more
      simp only [cons_append, nil_append]
      rw [parameter_last before, reverse_cons]
    | more others =>
      obtain ⟨line, after, rfl, more⟩ := kinds_eq_cons spelled
      obtain ⟨l, after, rfl, same⟩ := kinds_eq_cons more
      simp only [length_cons] at fits
      simp only [cons_append]
      rw [parameter_more before, ih same (by exact before) others (by omega)]
      simp
    | lastDefault expression =>
      obtain ⟨line, after, rfl, more⟩ := kinds_eq_cons spelled
      obtain ⟨k, after, rfl, more'⟩ := kinds_eq_cons more
      simp only [length_cons] at fits
      obtain ⟨l, -, parsed⟩ := (complete c n).beforeLast more' expression (by simp) (by omega) rest
      simp only [cons_append]
      rw [parameter_lastDefault parsed, reverse_cons]
    | moreDefault expression others =>
      obtain ⟨line, after, rfl, more⟩ := kinds_eq_cons spelled
      obtain ⟨k, after, rfl, more'⟩ := kinds_eq_cons more
      simp only [length_cons] at fits
      obtain ⟨l, after', same, shorter, parsed⟩ := (complete c n).before more' expression (by simp) (by omega) rest
      simp only [cons_append]
      rw [parameter_moreDefault parsed, ih same (by rfl) others (by omega)]
      simp

/-- What the functions of the statement parser accept with fuel `n`. -/
structure CompleteStatements (n : Nat) : Prop where
  parse : ∀ {c ts s rest}, Statement c.filename c.scopes s ts → Separated rest →
    ((∃ line a, s = .act line a) ∨ EndsLine rest) → 4 * ts.length < n → Stmt.parse c n (ts ++ rest) = .ok (s, rest)
  definition : ∀ {c line f ts rest}, Statement c.filename c.scopes (.define line f) (⟨.name "def", line⟩ :: ts) →
    EndsLine rest → 4 * ts.length + 4 ≤ n → Stmt.definition c n line (ts ++ rest) = .ok (f, rest)
  parseLine : ∀ {c read ss ts l rest}, Line c.filename c.scopes ss ts → 4 * ts.length + 1 < n →
    Stmt.parseLine c n read (ts ++ ⟨.newline, l⟩ :: rest) = .ok ⟨read.reverse ++ ss, ⟨.newline, l⟩, rest⟩

theorem completeStatements_zero : CompleteStatements 0 where
  parse _ _ _ fits := absurd fits (Nat.not_lt_zero _)
  definition _ _ fits := absurd fits (by omega)
  parseLine _ fits := absurd fits (Nat.not_lt_zero _)

theorem Simple.not_def (h : Simple inside a ts) : ts.head? ≠ some (.name "def") := by
  intro first
  cases h with
  | eval expression => exact expression.opener first (by simp [openers])
  | assign free =>
    obtain ⟨rfl⟩ := Tok.name.inj (Option.some.inj first)
    cases free
  | _ => simp at first

theorem Line.starts (h : Line file scopes ss ts) : ∃ t us, ts = t :: us ∧ Grammar.starts t.tok = true := by
  have first : ∀ {s : Stmt} {ts : List Token}, Statement file scopes s ts →
      ∃ t us, ts = t :: us ∧ Grammar.starts t.tok = true := by
    intro s ts statement
    cases statement with
    | act simple =>
      obtain ⟨u, us, same, opens⟩ := simple.starts
      exact ⟨_, _, rfl, (List.cons.inj same).1 ▸ opens⟩
    | define => exact ⟨_, _, rfl, rfl⟩
  cases h with
  | last statement => exact first statement
  | closed statement =>
    obtain ⟨t, us, rfl, opens⟩ := first statement
    exact ⟨t, _, rfl, opens⟩
  | more statement =>
    obtain ⟨t, us, rfl, opens⟩ := first statement
    exact ⟨t, _, rfl, opens⟩

theorem Line.lacks_newline (h : Line file scopes ss ts) : Lacks .newline (ts ++ rest) := by
  obtain ⟨t, us, rfl, opens⟩ := h.starts
  apply lacks_cons
  intro clash
  rw [clash] at opens
  cases opens

theorem stmt_define (read : Stmt.definition c n line ts = .ok (f, rest)) :
    Stmt.parse c (n + 1) (⟨.name "def", line⟩ :: ts) = .ok (.define line f, rest) := by
  rw [Stmt.parse.eq_def]
  dsimp only
  split
  · next same =>
    cases same
    rw [read]
    rfl
  · next other => exact absurd rfl (other _ _)

theorem complete_stmt (h : CompleteStatements n) (statement : Statement c.filename c.scopes s ts)
    (ends : Separated rest) (kind : (∃ line a, s = .act line a) ∨ EndsLine rest) (fits : 4 * ts.length < n + 1) :
    Stmt.parse c (n + 1) (ts ++ rest) = .ok (s, rest) := by
  cases statement with
  | act simple =>
    rw [Stmt.parse.eq_def, cons_append]
    dsimp only
    split
    · next same =>
      cases same
      exact absurd rfl simple.not_def
    · rw [← cons_append, complete_action rfl simple ends (by omega)]
      rfl
  | @define _ name params body ts us line l m k parameters lines =>
    have newline : EndsLine rest := kind.resolve_left (by rintro ⟨line, a, same⟩; cases same)
    have statement : Statement c.filename c.scopes (.define line ⟨name, qualify c.scopes name, c.filename, line, params, body⟩)
      (⟨.name "def", line⟩ :: ⟨.name name, l⟩ :: ⟨.lparen, m⟩ :: (ts ++ ⟨.colon, k⟩ :: us)) := .define parameters lines
    rw [length_cons] at fits
    exact stmt_define (h.definition statement newline (by omega))

theorem complete_definition (h : CompleteStatements n) {line : Nat} {f : FunctionDef} {ts rest : List Token}
    (statement : Statement c.filename c.scopes (.define line f) (⟨.name "def", line⟩ :: ts)) (newline : EndsLine rest)
    (fits : 4 * ts.length + 4 ≤ n + 1) : Stmt.definition c (n + 1) line (ts ++ rest) = .ok (f, rest) := by
  obtain ⟨e, more, rfl⟩ := newline
  cases statement with
  | define parameters body =>
    simp only [length_cons, length_append] at fits
    simp only [cons_append, append_assoc]
    rw [Stmt.definition.eq_def]
    dsimp only
    rw [name_same]
    dsimp only [bind, Except.bind]
    rw [expect_same]
    dsimp only
    rw [complete_parameters rfl (by rfl) parameters (by omega)]
    dsimp only
    rw [expect_same]
    dsimp only
    rw [h.parseLine body (by omega)]
    rfl

theorem complete_parseLine (h : CompleteStatements n) {read ss ts rest l} (line : Line c.filename c.scopes ss ts)
    (fits : 4 * ts.length + 1 < n + 1) :
    Stmt.parseLine c (n + 1) read (ts ++ ⟨.newline, l⟩ :: rest) = .ok ⟨read.reverse ++ ss, ⟨.newline, l⟩, rest⟩ := by
  rw [Stmt.parseLine.eq_def]
  cases line with
  | last statement =>
    have parsed := h.parse statement ⟨.newline, l, rest, rfl, .inl rfl⟩ (.inr ⟨l, rest, rfl⟩) (by omega)
    dsimp only
    rw [parsed]
    simp [bind, Except.bind, pure, Except.pure]
  | @closed _ line k action ts statement =>
    simp only [length_append, length_singleton] at fits
    have parsed := h.parse statement ⟨.semi, k, ⟨.newline, l⟩ :: rest, rfl, .inr rfl⟩ (.inl ⟨line, action, rfl⟩) (by omega)
    dsimp only
    rw [append_assoc, singleton_append, parsed]
    dsimp only [bind, Except.bind]
    rw [expect_same]
    simp [pure, Except.pure]
  | @more _ line k action ss ts us statement others =>
    simp only [length_append, length_cons] at fits
    have parsed := h.parse statement ⟨.semi, k, us ++ ⟨.newline, l⟩ :: rest, rfl, .inr rfl⟩ (.inl ⟨line, action, rfl⟩)
      (by omega)
    dsimp only
    rw [append_assoc, cons_append, parsed]
    dsimp only [bind, Except.bind]
    rw [expect_same]
    dsimp only
    split
    · next same => exact absurd rfl (others.lacks_newline _ (congrArg List.head? same))
    · rw [h.parseLine others (by omega)]
      simp

/-- Tokens that spell statements are read as those statements. The induction is on the fuel. -/
theorem completeStatements (n) : CompleteStatements n := by
  induction n with
  | zero => exact completeStatements_zero
  | succ n h => exact ⟨complete_stmt h, complete_definition h, complete_parseLine h⟩

/-- With a budget for the longest descent and a step for each line, the lines of a module are read up to the end. -/
theorem complete_parseLines (scopes : c.scopes = []) (module : Module c.filename stmts ts)
    (fits : 4 * ts.length + 1 < budget) (steps : ts.length < n) :
    Script.parseLines c budget n (ts ++ ⟨.eof, line⟩ :: rest) = .ok stmts := by
  induction module generalizing n with
  | nil =>
    obtain ⟨n, rfl⟩ := Nat.exists_eq_succ_of_ne_zero (Nat.ne_of_gt steps)
    rfl
  | @cons ss others ts us l here module ih =>
    obtain ⟨n, rfl⟩ := Nat.exists_eq_succ_of_ne_zero (Nat.ne_of_gt (Nat.lt_of_le_of_lt (Nat.zero_le _) steps))
    rw [length_append, length_cons] at fits steps
    rw [← scopes] at here
    rw [Script.parseLines.eq_def, append_assoc, cons_append]
    dsimp only
    split
    · next same => simp at same
    · next same =>
      obtain ⟨t, more, rfl, first⟩ := here.starts
      cases same
      cases first
    · rw [(completeStatements budget).parseLine here (by omega)]
      dsimp only [bind, Except.bind]
      rw [ih (by omega) (by omega)]
      simp [pure, Except.pure]

end Completeness

/-! ## Brackets and lines -/

theorem Simple.balanced (h : Simple inside a ts) (d) : ts.foldl nest d = d := by
  cases h with
  | raiseWith _ expression => simp [nest, expression.balanced]
  | retWith _ expression => exact expression.balanced d
  | assign _ expression => exact expression.balanced d
  | eval expression => exact expression.balanced d
  | _ => rfl

theorem Parameters.balanced {defaulted ps ts} (h : Parameters defaulted ps ts) (d) : ts.foldl nest (d + 1) = d := by
  induction h with
  | close => rfl
  | last => rfl
  | more _ ih => exact ih
  | lastDefault expression => simp [nest, expression.balanced]
  | moreDefault expression _ ih => simp [nest, expression.balanced, ih]

theorem Line.balanced (h : Line file scopes ss ts) (d) : (kinds ts).foldl nest d = d := by
  refine @Line.rec file (fun _ _ ts _ => ∀ d, (kinds ts).foldl nest d = d)
    (fun _ _ ts _ => ∀ d, (kinds ts).foldl nest d = d) ?act ?define ?last ?closed ?more scopes ss ts h d
  case act =>
    intro scopes action t ts simple d
    exact simple.balanced d
  case define =>
    intro scopes name params body ts us line l m n parameters _ lines d
    simp [nest, parameters.balanced, lines]
  case last =>
    intro scopes s ts _ statement d
    exact statement d
  case closed =>
    intro scopes line l action ts _ statement d
    simp [nest, statement]
  case more =>
    intro scopes line l action ss ts us _ _ statement lines d
    simp [nest, statement, lines]

theorem Module.balanced (h : Module file stmts ts) (d) : (kinds ts).foldl nest d = d := by
  induction h with
  | nil => rfl
  | cons line _ ih => simp [nest, line.balanced, ih]

end Grammar

def Token.shift (k : Nat) (t : Token) : Token := ⟨t.tok, t.line + k⟩

mutual

/-- The statement `k` lines further down, the functions in it as well. -/
def Stmt.shift (k : Nat) : Stmt → Stmt
  | .act line action => .act (line + k) action
  | .define line ⟨name, qualname, filename, l, params, body⟩ =>
    .define (line + k) ⟨name, qualname, filename, l + k, params, Stmt.shiftAll k body⟩

def Stmt.shiftAll (k : Nat) : List Stmt → List Stmt
  | [] => []
  | s :: ss => s.shift k :: Stmt.shiftAll k ss

end

def FunctionOf.shift (k : Nat) (f : FunctionDef) : FunctionDef :=
  { f with line := f.line + k, body := Stmt.shiftAll k f.body }

theorem Stmt.shift_define (k line) (f : FunctionDef) :
    (Stmt.define line f).shift k = .define (line + k) (f.shift k) := rfl

theorem Stmt.shiftAll_append (k ss us) : Stmt.shiftAll k (ss ++ us) = Stmt.shiftAll k ss ++ Stmt.shiftAll k us := by
  induction ss with
  | nil => rfl
  | cons s ss ih => exact congrArg (s.shift k :: ·) ih

theorem Stmt.shiftAll_eq_map (k) (ss : List Stmt) : Stmt.shiftAll k ss = ss.map (Stmt.shift k) := by
  induction ss with
  | nil => rfl
  | cons s ss ih => exact congrArg (s.shift k :: ·) ih

namespace Grammar

@[simp]
theorem kinds_shift (k) (ts : List Token) : kinds (ts.map (Token.shift k)) = kinds ts := by
  simp [kinds, Token.shift, Function.comp_def]

theorem Line.shift (h : Line file scopes ss ts) (k) :
    Line file scopes (Stmt.shiftAll k ss) (ts.map (Token.shift k)) := by
  refine @Line.rec file (fun scopes s ts _ => Statement file scopes (s.shift k) (ts.map (Token.shift k)))
    (fun scopes ss ts _ => Line file scopes (Stmt.shiftAll k ss) (ts.map (Token.shift k)))
    ?act ?define ?last ?closed ?more scopes ss ts h
  case act =>
    intro scopes action t ts simple
    rw [← kinds_shift k] at simple
    exact .act simple
  case define =>
    intro scopes name params body ts us line l m n parameters _ lines
    rw [← kinds_shift k] at parameters
    rw [map_cons, map_cons, map_cons, map_append]
    exact .define parameters lines
  case last =>
    intro scopes s ts _ statement
    exact .last statement
  case closed =>
    intro scopes line l action ts _ statement
    rw [map_append]
    exact .closed statement
  case more =>
    intro scopes line l action ss ts us _ _ statement lines
    rw [map_append]
    exact .more statement lines

theorem Module.shift (h : Module file stmts ts) (k) : Module file (Stmt.shiftAll k stmts) (ts.map (Token.shift k)) := by
  induction h with
  | nil => exact .nil
  | cons line _ ih =>
    rw [Stmt.shiftAll_append, map_append]
    exact .cons (line.shift k) ih

theorem Module.append (first : Module file ss ts) (second : Module file ss' ts') :
    Module file (ss ++ ss') (ts ++ ts') := by
  induction first with
  | nil => exact second
  | cons line _ ih =>
    rw [append_assoc, append_assoc]
    exact .cons line ih

theorem Module.ends (h : Module file stmts ts) : ts = [] ∨ ∃ before line, ts = before ++ [⟨.newline, line⟩] := by
  induction h with
  | nil => exact .inl rfl
  | @cons _ _ ts us l _ _ ih =>
    right
    obtain rfl | ⟨before, line, rfl⟩ := ih
    · exact ⟨ts, l, rfl⟩
    · exact ⟨ts ++ ⟨.newline, l⟩ :: before, line, by simp⟩

/-- A list of tokens with one end of input, at its end, is parsed into what the tokens before it spell. -/
theorem parseTokens_ok_iff (inner : ∀ t ∈ ts, t.tok ≠ .eof) :
    Script.parseTokens file (ts ++ [⟨.eof, line⟩]) = .ok stmts ↔ Module file stmts ts := by
  unfold Script.parseTokens
  constructor
  · intro read
    obtain ⟨used, rest, same, module, rfl | ⟨l, more, rfl⟩⟩ := sound_parseLines rfl read
    · rw [append_nil] at same
      obtain rfl | ⟨before, l, rfl⟩ := module.ends
      · simp at same
      · obtain ⟨-, last⟩ := append_inj' same rfl
        cases last
    · -- Only the last token ends the input, so the parser stopped there.
      obtain rfl | ⟨before, last, rfl⟩ := eq_nil_or_concat more
      · obtain ⟨rfl, -⟩ := append_inj' same rfl
        exact module
      · rw [concat_eq_append, ← cons_append, ← append_assoc] at same
        obtain ⟨rfl, -⟩ := append_inj' same rfl
        exact absurd rfl (inner ⟨.eof, l⟩ (by simp))
  · intro module
    have fits : 4 * ts.length + 1 < Script.parseBudget (ts ++ [(⟨.eof, line⟩ : Token)]).length := by
      simp only [Script.parseBudget, length_append, length_singleton]
      omega
    exact complete_parseLines rfl module fits (by simp only [length_append, length_singleton]; omega)

end Grammar
end MonitoredVm
