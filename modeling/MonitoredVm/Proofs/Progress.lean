import MonitoredVm.Proofs.Composition

/-!
# The parser runs to an end

What is read is taken from the front of the tokens, so each tree costs at least one of them (`Took`), a definition included,
although it hands a newline back. The descent nests at most four calls deep per token left, so with the budget of
`Script.parseTokens` no answer is for want of fuel (`decided`, `decidedStatements`).

Main statement: `parser_progress`.
-/

namespace MonitoredVm

open List

namespace Grammar

/-- At least one token has been taken from the front of `ts`, and `rest` is left. -/
def Took (ts rest : List Token) : Prop := ∃ used, used ≠ [] ∧ ts = used ++ rest

/-- The answer is not for want of fuel. -/
def Decided {α : Type} (x : Except FaultAt α) : Prop := ∀ line, x ≠ .error ⟨.exhausted, line⟩

section Took
variable {c : ParseContext} {n : Nat} {ts rest mid : List Token}

theorem Took.shorter (h : Took ts rest) : rest.length < ts.length := by
  obtain ⟨used, some, rfl⟩ := h
  rw [length_append]
  exact Nat.lt_add_of_pos_left (length_pos_iff.2 some)

theorem Took.trans (h : Took ts mid) (h' : Took mid rest) : Took ts rest := by
  obtain ⟨used, some, rfl⟩ := h
  obtain ⟨more, -, rfl⟩ := h'
  exact ⟨used ++ more, by simp [some], (append_assoc ..).symm⟩

theorem Took.of_kinds (here : kinds used = t :: us) (same : ts = used ++ rest) : Took ts rest :=
  ⟨used, fun none => by simp [none] at here, same⟩

theorem took_atom (read : Expr.atom c n ts = .ok (e, rest)) : Took ts rest := by
  obtain ⟨used, same, atom⟩ := (sound c n).atom read
  obtain ⟨t, us, here, -⟩ := atom.starts
  exact .of_kinds here same

theorem took_parse (read : Expr.parse c n ts = .ok (e, rest)) : Took ts rest := by
  obtain ⟨used, same, expression, -⟩ := (sound c n).parse read
  obtain ⟨t, us, here, -⟩ := expression.starts
  exact .of_kinds here same

theorem took_arguments {args kwargs all} (read : Expr.arguments c n args kwargs ts = .ok (all, rest)) : Took ts rest := by
  obtain ⟨used, es, ks, same, -, -, arguments, -⟩ := (sound c n).arguments read
  have some : kinds used ≠ [] := by
    generalize kinds used = us at arguments
    cases arguments <;> simp
  exact ⟨used, mt (congrArg kinds) some, same⟩

theorem took_parameters {read all} (done : Param.parseAll c n read ts = .ok (all, rest)) : Took ts rest := by
  obtain ⟨used, ps, same, -, parameters⟩ := sound_parameters done
  have some : kinds used ≠ [] := by
    generalize defaulted read = d, kinds used = us at parameters
    cases parameters <;> simp
  exact ⟨used, mt (congrArg kinds) some, same⟩

theorem took_stmt (read : Stmt.parse c n ts = .ok (s, rest)) : Took ts rest := by
  obtain ⟨used, same, statement, -⟩ := (soundStatements n).parse read
  exact ⟨used, by cases statement <;> simp, same⟩

theorem took_expect (read : c.expect tok what ts = .ok rest) : Took ts rest := by
  obtain ⟨t, same, -⟩ := expect_ok read
  exact ⟨[t], by simp, same⟩

theorem took_name (read : c.name ts = .ok (m, rest)) : Took ts rest := by
  obtain ⟨line, same⟩ := name_ok read
  exact ⟨[_], by simp, same⟩

theorem took_line {read p} (done : Stmt.parseLine c n read ts = .ok p) :
    p.lineEnd.tok = .newline ∧ Took ts (p.lineEnd :: p.rest) := by
  obtain ⟨used, ss, same, newline, -, line⟩ := (soundStatements n).parseLine done
  obtain ⟨t, us, rfl, -⟩ := line.starts
  exact ⟨newline, _, by simp, same⟩

theorem took_definition (read : Stmt.definition c n line ts = .ok (f, rest)) :
    ∃ k start body, Stmt.parseLine { c with scopes := f.qualname :: c.scopes } k [] start = .ok body ∧ f.body = body.stmts ∧
      body.lineEnd.tok = .newline ∧ rest = body.lineEnd :: body.rest ∧ Took ts start ∧ Took start rest := by
  cases n with
  | zero => cases read
  | succ n =>
    rw [Stmt.definition.eq_def] at read
    obtain ⟨⟨name, mid⟩, first, second⟩ := bind_eq_ok read
    obtain ⟨mid', opens, third⟩ := bind_eq_ok second
    obtain ⟨⟨params, mid''⟩, parameters, fourth⟩ := bind_eq_ok third
    obtain ⟨start, colon, fifth⟩ := bind_eq_ok fourth
    obtain ⟨body, lines, last⟩ := bind_eq_ok fifth
    cases last
    obtain ⟨newline, took⟩ := took_line lines
    exact ⟨n, start, body, lines, rfl, newline, rfl,
      (((took_name first).trans (took_expect opens)).trans (took_parameters parameters)).trans (took_expect colon), took⟩

end Took

/-! ## Fuel -/

namespace Decided
variable {α β : Type}

theorem ok (a : α) : Decided (.ok a) := fun _ failed => by cases failed

theorem fault (other : f ≠ .exhausted) (line) : Decided (.error ⟨f, line⟩ : Except FaultAt α) := by
  intro line' failed
  cases failed
  exact other rfl

theorem bind (first : Decided x) (then' : ∀ a, x = .ok a → Decided (f a)) : Decided (x >>= f) := by
  cases x with
  | error e => exact fun line failed => first line (congrArg Except.error (Except.error.inj failed))
  | ok a => exact then' a rfl

theorem bindRest {f : α × List Token → Except FaultAt β} (first : Decided x)
    (then' : ∀ a rest, x = .ok (a, rest) → Decided (f (a, rest))) : Decided (x >>= f) :=
  first.bind fun read => then' read.1 read.2

theorem map (first : Decided x) (f : α → β) : Decided (x >>= fun a => .ok (f a)) :=
  first.bind fun a _ => .ok (f a)

theorem expect (c : ParseContext) (tok what ts) : Decided (c.expect tok what ts) := by
  unfold ParseContext.expect
  split
  · split
    · exact .ok _
    · exact .fault (by simp) _
  · exact .fault (by simp) _

theorem name (c : ParseContext) (ts) : Decided (c.name ts) := by
  unfold ParseContext.name
  split
  · exact .ok _
  all_goals exact .fault (by simp) _

end Decided

/-- Fuel that is enough for the functions of the expression parser: four units for each token that is left, whatever the
tokens are. -/
structure Ample (c : ParseContext) (n : Nat) : Prop where
  parse : ∀ {ts}, 4 * ts.length + 2 ≤ n → Decided (Expr.parse c n ts)
  calls : ∀ {f ts}, 4 * ts.length + 1 ≤ n → Decided (Expr.calls c n f ts)
  arguments : ∀ {args kwargs ts}, 4 * ts.length + 3 ≤ n → Decided (Expr.arguments c n args kwargs ts)
  moreArguments : ∀ {args kwargs ts}, 4 * ts.length + 1 ≤ n → Decided (Expr.moreArguments c n args kwargs ts)
  atom : ∀ {ts}, 4 * ts.length + 1 ≤ n → Decided (Expr.atom c n ts)
  group : ∀ {ts}, 4 * ts.length + 3 ≤ n → Decided (Expr.group c n ts)
  tupleRest : ∀ {read ts}, 4 * ts.length + 1 ≤ n → Decided (Expr.tupleRest c n read ts)
  items : ∀ {read ts}, 4 * ts.length + 3 ≤ n → Decided (Expr.items c n read ts)
  pairs : ∀ {read ts}, 4 * ts.length + 3 ≤ n → Decided (Expr.pairs c n read ts)

section Fuel
variable {c : ParseContext} {n : Nat} {ts : List Token}

section
variable (h : Ample c n)
include h

theorem Ample.then (fits : 4 * ts.length + 2 ≤ n) (next : ∀ e rest, rest.length < ts.length → Decided (f (e, rest))) :
    Decided (Expr.parse c n ts >>= f) :=
  (h.parse fits).bindRest fun e rest read => next e rest (took_parse read).shorter

theorem decided_calls (fits : 4 * ts.length + 1 ≤ n + 1) : Decided (Expr.calls c (n + 1) f ts) := by
  rw [Expr.calls.eq_def]
  dsimp only
  split
  · rw [length_cons] at fits
    refine (h.arguments (by omega)).bindRest fun all rest read => ?_
    obtain ⟨args, kwargs⟩ := all
    have shorter := (took_arguments read).shorter
    exact h.calls (by dsimp only; omega)
  · exact .ok _

theorem decided_arguments (fits : 4 * ts.length + 3 ≤ n + 1) : Decided (Expr.arguments c (n + 1) args kwargs ts) := by
  rw [Expr.arguments.eq_def]
  dsimp only
  split
  · exact .ok _
  · simp only [length_cons] at fits
    exact h.then (by omega) fun v rest shorter => h.moreArguments (by dsimp only; omega)
  · split
    · exact h.then (by omega) fun v rest shorter => h.moreArguments (by dsimp only; omega)
    · exact .fault (by simp) _

theorem decided_moreArguments (fits : 4 * ts.length + 1 ≤ n + 1) :
    Decided (Expr.moreArguments c (n + 1) args kwargs ts) := by
  rw [Expr.moreArguments.eq_def]
  dsimp only
  split
  · rw [length_cons] at fits
    exact h.arguments (by omega)
  · exact (Decided.expect _ _ _ _).map _

theorem decided_atom (fits : 4 * ts.length + 1 ≤ n + 1) : Decided (Expr.atom c (n + 1) ts) := by
  cases ts with
  | nil => exact .fault (by simp) _
  | cons t rest =>
    rw [length_cons] at fits
    rw [Expr.atom.eq_def]
    dsimp only
    split
    case h_3 => split <;> first | exact .ok _ | exact .fault (by simp) _
    case h_9 => split <;> first | exact .ok _ | exact .fault (by simp) _
    case h_10 => exact h.group (by omega)
    case h_11 => exact (h.items (by omega)).map _
    case h_12 => exact (h.pairs (by omega)).map _
    all_goals first | exact .ok _ | exact .fault (by simp) _

theorem decided_group (fits : 4 * ts.length + 3 ≤ n + 1) : Decided (Expr.group c (n + 1) ts) := by
  rw [Expr.group.eq_def]
  dsimp only
  split
  · exact .ok _
  · refine h.then (by omega) fun v rest shorter => ?_
    dsimp only
    split
    · exact .ok _
    · exact (h.tupleRest (by omega)).map _

theorem decided_tupleRest {read} (fits : 4 * ts.length + 1 ≤ n + 1) : Decided (Expr.tupleRest c (n + 1) read ts) := by
  rw [Expr.tupleRest.eq_def]
  dsimp only
  split
  · exact .ok _
  · rw [length_cons] at fits
    exact h.then (by omega) fun v rest shorter => h.tupleRest (by dsimp only; omega)
  · exact (Decided.expect _ _ _ _).map _

theorem decided_items {read} (fits : 4 * ts.length + 3 ≤ n + 1) : Decided (Expr.items c (n + 1) read ts) := by
  rw [Expr.items.eq_def]
  dsimp only
  split
  · exact .ok _
  · refine h.then (by omega) fun v rest shorter => ?_
    dsimp only
    split
    · rw [length_cons] at shorter
      exact h.items (by omega)
    · exact (Decided.expect _ _ _ _).map _

theorem decided_pairs {read} (fits : 4 * ts.length + 3 ≤ n + 1) : Decided (Expr.pairs c (n + 1) read ts) := by
  rw [Expr.pairs.eq_def]
  dsimp only
  split
  · exact .ok _
  · refine h.then (by omega) fun k rest shorter => (Decided.expect _ _ _ _).bind fun mid between => ?_
    have behind : mid.length < rest.length := (took_expect between).shorter
    refine h.then (by omega) fun v rest shorter => ?_
    dsimp only
    split
    · rw [length_cons] at shorter
      exact h.pairs (by omega)
    · exact (Decided.expect _ _ _ _).map _

end

theorem decided (c n) : Ample c n := by
  induction n with
  | zero => constructor <;> intros <;> omega
  | succ n h =>
    refine ⟨fun {ts} fits => ?_, decided_calls h, decided_arguments h, decided_moreArguments h, decided_atom h, decided_group h,
      decided_tupleRest h, decided_items h, decided_pairs h⟩
    rw [Expr.parse]
    refine (h.atom (by omega)).bindRest fun e rest read => ?_
    have shorter := (took_atom read).shorter
    exact h.calls (by omega)

theorem decided_parameters {read} (fits : 4 * ts.length + 1 ≤ n) : Decided (Param.parseAll c n read ts) := by
  induction n generalizing read ts with
  | zero => omega
  | succ n ih =>
    rw [Param.parseAll.eq_def]
    dsimp only
    split
    · exact .ok _
    · refine (Decided.name _ _).bindRest fun name rest first => ?_
      have shorter := (took_name first).shorter
      dsimp only
      split
      · rw [length_cons] at shorter
        refine (decided c n).then (by omega) fun e rest shorter => ?_
        dsimp only [bind, pure, Except.bind, Except.pure]
        split
        · rw [length_cons] at shorter
          exact ih (by omega)
        · exact (Decided.expect _ _ _ _).map _
      · split
        · exact .fault (by simp) _
        · dsimp only [bind, pure, Except.bind, Except.pure]
          split
          · rw [length_cons] at shorter
            exact ih (by omega)
          · exact (Decided.expect _ _ _ _).map _

theorem decided_action (fits : 4 * ts.length + 2 ≤ n) : Decided (Action.parse c n ts) := by
  unfold Action.parse
  split
  case h_1 => exact .ok _
  case h_2 => exact (Decided.name _ _).map _
  case h_3 =>
    refine (Decided.name _ _).bindRest fun typeName rest first => ?_
    have shorter := (took_name first).shorter
    rw [length_cons] at fits
    dsimp only
    split
    · exact .fault (by simp) _
    · split
      · exact .ok _
      · rw [length_cons] at shorter
        exact (decided c n).then (by omega) fun message rest _ => (Decided.expect _ _ _ _).map _
      · exact .ok _
  case h_4 =>
    rw [length_cons] at fits
    unfold Action.parseReturn
    split
    · exact .fault (by simp) _
    · split
      case h_5 => exact ((decided c n).parse (by omega)).map _
      all_goals exact .ok _
  case h_5 =>
    simp only [length_cons] at fits
    split
    · exact .fault (by simp) _
    · exact ((decided c n).parse (by omega)).map _
  case h_6 => exact ((decided c n).parse fits).map _

/-- Fuel that is enough for the functions of the statement parser. -/
structure AmpleStatements (n : Nat) : Prop where
  parse : ∀ {c ts}, 4 * ts.length + 3 ≤ n → Decided (Stmt.parse c n ts)
  definition : ∀ {c line ts}, 4 * ts.length + 1 ≤ n → Decided (Stmt.definition c n line ts)
  parseLine : ∀ {c read ts}, 4 * ts.length + 4 ≤ n → Decided (Stmt.parseLine c n read ts)

theorem decided_stmt (h : AmpleStatements n) (fits : 4 * ts.length + 3 ≤ n + 1) : Decided (Stmt.parse c (n + 1) ts) := by
  rw [Stmt.parse.eq_def]
  dsimp only
  split
  · rw [length_cons] at fits
    exact (h.definition (by omega)).map _
  · exact (decided_action (by omega)).map _

theorem decided_definition (h : AmpleStatements n) {line} (fits : 4 * ts.length + 1 ≤ n + 1) :
    Decided (Stmt.definition c (n + 1) line ts) := by
  rw [Stmt.definition.eq_def]
  refine (Decided.name _ _).bindRest fun name rest named => (Decided.expect _ _ _ _).bind fun mid opens => ?_
  have shorter := (took_name named).shorter
  have shorter' := (took_expect opens).shorter
  refine (decided_parameters (by omega)).bindRest fun params rest' parameters => (Decided.expect _ _ _ _).bind fun start colon => ?_
  have shorter'' := (took_parameters parameters).shorter
  have shorter''' := (took_expect colon).shorter
  exact (h.parseLine (by omega)).map _

theorem decided_parseLine (h : AmpleStatements n) {read} (fits : 4 * ts.length + 4 ≤ n + 1) :
    Decided (Stmt.parseLine c (n + 1) read ts) := by
  rw [Stmt.parseLine.eq_def]
  refine (h.parse (by omega)).bindRest fun stmt rest first => ?_
  have shorter := (took_stmt first).shorter
  dsimp only
  split
  · exact .ok _
  · refine (Decided.expect _ _ _ _).bind fun mid semi => ?_
    have shorter' := (took_expect semi).shorter
    split
    · exact .ok _
    · exact h.parseLine (by omega)

theorem decidedStatements (n) : AmpleStatements n := by
  induction n with
  | zero => constructor <;> intros <;> omega
  | succ n h => exact ⟨decided_stmt h, decided_definition h, decided_parseLine h⟩

theorem decided_parseLines (fits : 4 * ts.length + 4 ≤ budget) (steps : ts.length < n) :
    Decided (Script.parseLines c budget n ts) := by
  induction n generalizing ts with
  | zero => omega
  | succ n ih =>
    rw [Script.parseLines.eq_def]
    dsimp only
    split
    · exact .ok _
    · exact .ok _
    · refine ((decidedStatements budget).parseLine fits).bind fun p first => ?_
      have shorter := (took_line first).2.shorter
      rw [length_cons] at shorter
      exact (ih (by omega) (by omega)).map _

end Fuel
end Grammar

open Grammar

namespace Lexer

theorem decided_start (s : Lexer) (c) : Decided (s.start c) := by
  unfold start
  repeat' split
  all_goals first | exact .ok _ | exact .fault (by simp) _

theorem decided_endNumber (s : Lexer) (read isFloat) : Decided (s.endNumber read isFloat) := by
  unfold endNumber
  dsimp only
  repeat' split
  all_goals first | exact .ok _ | exact .fault (by simp) _

theorem decided_step (s : Lexer) (c) : Decided (s.step c) := by
  unfold step endText
  dsimp only
  repeat' split
  all_goals first
    | exact .ok _
    | exact .fault (by simp) _
    | exact decided_start _ _
    | exact (decided_endNumber _ _ _).bind fun s _ => decided_start s c

theorem decided_settle (s : Lexer) : Decided s.settle := by
  unfold settle
  split
  all_goals first | exact .ok _ | exact .fault (by simp) _ | exact decided_endNumber _ _ _

theorem decided_run (s : Lexer) (source) : Decided (s.run source) := by
  induction source generalizing s with
  | nil => exact .ok s
  | cons c source ih => exact (decided_step s c).bind fun t _ => ih t

theorem decided_scan (source) : Decided (scan source) :=
  (decided_run {} source).bind fun s _ => (decided_settle s).map finish

end Lexer

theorem decided_compile (failed : Script.compile source file = .error e) : e.fault ≠ .exhausted := by
  have tokens : Decided (Lexer.scan source.toList >>= Script.parseTokens file) :=
    (Lexer.decided_scan _).bind fun ts _ => decided_parseLines (by unfold Script.parseBudget; omega) (Nat.lt_succ_self _)
  unfold Script.compile at failed
  split at failed
  · cases failed
  next f same =>
    cases failed
    obtain ⟨fault, line⟩ := f
    rintro rfl
    exact tokens line same

/-- Every tree costs a token and the last one is the end of the input. What is read stands at the front of the tokens; a
definition ends in front of the newline that its body took last and keeps the rest of its line. No text is refused for want of
fuel, and the statements of a compiled one are spelled by all of its tokens. -/
theorem parser_progress (source file : String) :
    (∀ c n ts,
      (∀ e rest, Expr.atom c n ts = .ok (e, rest) → Took ts rest) ∧
      (∀ e rest, Expr.parse c n ts = .ok (e, rest) → Took ts rest) ∧
      (∀ s rest, Stmt.parse c n ts = .ok (s, rest) → Took ts rest) ∧
      ∀ line f rest, Stmt.definition c n line ts = .ok (f, rest) →
        ∃ k start body, Stmt.parseLine { c with scopes := f.qualname :: c.scopes } k [] start = .ok body ∧
          f.body = body.stmts ∧ body.lineEnd.tok = .newline ∧ rest = body.lineEnd :: body.rest ∧
          Took ts start ∧ Took start rest) ∧
    (∀ e, Script.compile source file = .error e → e.fault ≠ .exhausted) ∧
    ∀ script, Script.compile source file = .ok script → ∃ before line,
      Lexer.scan source.toList = .ok (before ++ [⟨.eof, line⟩]) ∧ (∀ t ∈ before, t.tok ≠ .eof) ∧
        Module file script.body before := by
  refine ⟨fun c n ts => ⟨fun _ _ => took_atom, fun _ _ => took_parse, fun _ _ => took_stmt, fun _ _ _ => took_definition⟩,
    fun _ => decided_compile, fun script compiled => ?_⟩
  obtain ⟨s, t, ran, settled, -, module, inner⟩ := module_of_compile compiled
  refine ⟨t.closed.reverse, t.line, ?_, fun x mem => inner x (mem_reverse.1 mem), module⟩
  rw [← Lexer.finish_eq, Lexer.scan, ran]
  change (s.settle >>= fun s => .ok s.finish) = _
  rw [settled]
  rfl

end MonitoredVm
