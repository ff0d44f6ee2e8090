import MonitoredVm.Script.Parser

/-!
# The grammar of scripts

Which tokens spell which tree, as relations without fuel, positions or accumulators. Expressions do not depend on
lines, so they are spelled by the kinds of tokens; a statement records the line of its first token.

Main statements: what the parser reads is spelled by the tokens it consumed (`sound`), and tokens that spell a tree
are read as that tree in front of anything that cannot continue it, with fuel linear in their number (`complete`).
-/

namespace MonitoredVm

open List

namespace Grammar

/-- The tokens without their lines. -/
def kinds (ts : List Token) : List Tok := ts.map Token.tok

mutual

/-- An atom and the calls applied to it. -/
inductive Expression : Expr → List Tok → Prop
  | intro {a e ts us} : Atom a ts → Calls a e us → Expression e (ts ++ us)

/-- From the callee to the last of the calls applied to it. -/
inductive Calls : Expr → Expr → List Tok → Prop
  | done {e} : Calls e e []
  | call {f e args kwargs ts us} :
    Arguments args kwargs ts → Calls (.call f args kwargs) e us → Calls f e (.lparen :: ts ++ us)

/-- Arguments, keywords last, and the closing parenthesis. -/
inductive Arguments : List Expr → List (String × Expr) → List Tok → Prop
  | close : Arguments [] [] [.rparen]
  | last {e ts} : Expression e ts → Arguments [e] [] (ts ++ [.rparen])
  | more {e es ks ts us} : Expression e ts → Arguments es ks us → Arguments (e :: es) ks (ts ++ .comma :: us)
  | lastNamed {key e ts} : Expression e ts → Arguments [] [(key, e)] (.name key :: .equal :: ts ++ [.rparen])
  | moreNamed {key e ks ts us} :
    Expression e ts → Arguments [] ks us → Arguments [] ((key, e) :: ks) (.name key :: .equal :: ts ++ .comma :: us)

/-- A literal, a name or a bracketed form. -/
inductive Atom : Expr → List Tok → Prop
  | int (i : Int64) : Atom (.int i) [.int i]
  | float (x : Binary64) : Atom (.float x) [.float x]
  | negInt (i : Int64) : Atom (.int (-i)) [.minus, .int i]
  | negFloat (x : Binary64) : Atom (.float x.neg) [.minus, .float x]
  | str (s : String) : Atom (.str s) [.str s]
  | bytes (b : List UInt8) : Atom (.bytes b) [.bytes b]
  | none : Atom .none [.name "None"]
  | true : Atom (.bool true) [.name "True"]
  | false : Atom (.bool false) [.name "False"]
  | name {m} : isKeyword m = .false → Atom (.name m) [.name m]
  | unit : Atom (.tuple []) [.lparen, .rparen]
  | group {e ts} : Expression e ts → Atom e (.lparen :: ts ++ [.rparen])
  | tuple {e es ts us} : Expression e ts → Items .rparen es us → Atom (.tuple (e :: es)) (.lparen :: ts ++ .comma :: us)
  | list {es ts} : Items .rbracket es ts → Atom (.list es) (.lbracket :: ts)
  | dict {ps ts} : Pairs ps ts → Atom (.dict ps) (.lbrace :: ts)

/-- Items, possibly with a comma after the last, and the closing bracket. -/
inductive Items : Tok → List Expr → List Tok → Prop
  | close {close} : Items close [] [close]
  | last {close e ts} : Expression e ts → Items close [e] (ts ++ [close])
  | more {close e es ts us} : Expression e ts → Items close es us → Items close (e :: es) (ts ++ .comma :: us)

/-- Pairs, possibly with a comma after the last, and the closing brace. -/
inductive Pairs : List (Expr × Expr) → List Tok → Prop
  | close : Pairs [] [.rbrace]
  | last {k v ts us} : Expression k ts → Expression v us → Pairs [(k, v)] (ts ++ .colon :: us ++ [.rbrace])
  | more {k v ps ts us ws} :
    Expression k ts → Expression v us → Pairs ps ws → Pairs ((k, v) :: ps) (ts ++ .colon :: us ++ .comma :: ws)

end

/-! ## What the parser reads -/

/-- Nothing that continues an expression follows. -/
def Ends (ts : List Token) : Prop := ∀ t ∈ ts.head?, t.tok ≠ .lparen

@[simp]
theorem kinds_nil : kinds [] = [] := rfl

@[simp]
theorem kinds_cons (t : Token) (ts) : kinds (t :: ts) = t.tok :: kinds ts := rfl

@[simp]
theorem kinds_append (ts us) : kinds (ts ++ us) = kinds ts ++ kinds us := map_append

@[simp]
theorem length_kinds (ts : List Token) : (kinds ts).length = ts.length := length_map ..

theorem bind_eq_ok {ε α β : Type} {x} {f : α → Except ε β} {b} (h : (x >>= f) = .ok b) :
    ∃ a, x = .ok a ∧ f a = .ok b := by
  cases x with
  | error why => cases h
  | ok a => exact ⟨a, rfl, h⟩

theorem expect_ok {c : ParseContext} (h : c.expect tok what ts = .ok rest) : ∃ t, ts = t :: rest ∧ t.tok = tok := by
  unfold ParseContext.expect at h
  split at h
  · split at h
    · next t _ same => exact ⟨t, congrArg (t :: ·) (Except.ok.inj h), same⟩
    · cases h
  · cases h

theorem name_ok {c : ParseContext} (h : c.name ts = .ok (n, rest)) : ∃ line, ts = ⟨.name n, line⟩ :: rest := by
  unfold ParseContext.name at h
  split at h
  · next line _ =>
    cases h
    exact ⟨line, rfl⟩
  · cases h
  · cases h

/-- What the functions of the expression parser read with fuel `n`. -/
structure Sound (c : ParseContext) (n : Nat) : Prop where
  parse : ∀ {ts e rest}, Expr.parse c n ts = .ok (e, rest) →
    ∃ used, ts = used ++ rest ∧ Expression e (kinds used) ∧ Ends rest
  calls : ∀ {f ts e rest}, Expr.calls c n f ts = .ok (e, rest) →
    ∃ used, ts = used ++ rest ∧ Calls f e (kinds used) ∧ Ends rest
  arguments : ∀ {args kwargs ts all named rest}, Expr.arguments c n args kwargs ts = .ok ((all, named), rest) →
    ∃ used es ks, ts = used ++ rest ∧ all = args.reverse ++ es ∧ named = kwargs.reverse ++ ks ∧
      Arguments es ks (kinds used) ∧ (kwargs ≠ [] → es = [])
  moreArguments : ∀ {args kwargs ts all named rest},
    Expr.moreArguments c n args kwargs ts = .ok ((all, named), rest) →
    (∃ t, ts = t :: rest ∧ t.tok = .rparen ∧ all = args.reverse ∧ named = kwargs.reverse) ∨
    (∃ t used es ks, ts = t :: used ++ rest ∧ t.tok = .comma ∧ all = args.reverse ++ es ∧
      named = kwargs.reverse ++ ks ∧ Arguments es ks (kinds used) ∧ (kwargs ≠ [] → es = []))
  atom : ∀ {ts e rest}, Expr.atom c n ts = .ok (e, rest) → ∃ used, ts = used ++ rest ∧ Atom e (kinds used)
  group : ∀ {t ts e rest}, t.tok = .lparen → Expr.group c n ts = .ok (e, rest) →
    ∃ used, ts = used ++ rest ∧ Atom e (kinds (t :: used))
  tupleRest : ∀ {read ts all rest}, Expr.tupleRest c n read ts = .ok (all, rest) →
    (∃ t, ts = t :: rest ∧ t.tok = .rparen ∧ all = read.reverse) ∨
    (∃ t used es, ts = t :: used ++ rest ∧ t.tok = .comma ∧ all = read.reverse ++ es ∧ Items .rparen es (kinds used))
  items : ∀ {read ts all rest}, Expr.items c n read ts = .ok (all, rest) →
    ∃ used es, ts = used ++ rest ∧ all = read.reverse ++ es ∧ Items .rbracket es (kinds used)
  pairs : ∀ {read ts all rest}, Expr.pairs c n read ts = .ok (all, rest) →
    ∃ used ps, ts = used ++ rest ∧ all = read.reverse ++ ps ∧ Pairs ps (kinds used)

section Soundness
variable {c : ParseContext} {n : Nat}

theorem sound_zero : Sound c 0 := by
  constructor <;> intros <;> contradiction

theorem sound_parse (h : Sound c n) {ts rest e} (read : Expr.parse c (n + 1) ts = .ok (e, rest)) :
    ∃ used, ts = used ++ rest ∧ Expression e (kinds used) ∧ Ends rest := by
  rw [Expr.parse] at read
  obtain ⟨⟨a, mid⟩, first, second⟩ := bind_eq_ok read
  obtain ⟨used, rfl, atom⟩ := h.atom first
  obtain ⟨more, rfl, calls, ends⟩ := h.calls second
  refine ⟨used ++ more, (append_assoc ..).symm, ?_, ends⟩
  rw [kinds_append]
  exact .intro atom calls

theorem sound_calls (h : Sound c n) {f e ts rest} (read : Expr.calls c (n + 1) f ts = .ok (e, rest)) :
    ∃ used, ts = used ++ rest ∧ Calls f e (kinds used) ∧ Ends rest := by
  rw [Expr.calls.eq_def] at read
  dsimp only at read
  split at read
  · next line after =>
    obtain ⟨⟨⟨args, kwargs⟩, mid⟩, first, second⟩ := bind_eq_ok read
    obtain ⟨used, es, ks, rfl, rfl, rfl, arguments, -⟩ := h.arguments first
    obtain ⟨more, rfl, calls, ends⟩ := h.calls second
    refine ⟨⟨.lparen, line⟩ :: used ++ more, by simp, ?_, ends⟩
    rw [kinds_append]
    exact .call arguments calls
  · next other =>
    cases read
    refine ⟨[], rfl, .done, fun t first opens => ?_⟩
    obtain ⟨after, rfl⟩ := head?_eq_some_iff.1 first
    obtain ⟨tok, line⟩ := t
    obtain rfl : tok = .lparen := opens
    exact other line after rfl

theorem sound_arguments (h : Sound c n) {args : List Expr} {all} {kwargs : List (String × Expr)} {named ts rest}
    (read : Expr.arguments c (n + 1) args kwargs ts = .ok ((all, named), rest)) :
    ∃ used es ks, ts = used ++ rest ∧ all = args.reverse ++ es ∧ named = kwargs.reverse ++ ks ∧
      Arguments es ks (kinds used) ∧ (kwargs ≠ [] → es = []) := by
  rw [Expr.arguments.eq_def] at read
  dsimp only at read
  split at read
  · next line after =>
    obtain ⟨same, rfl⟩ := Prod.mk.inj (Except.ok.inj read)
    cases same
    exact ⟨[⟨.rparen, line⟩], [], [], rfl, by simp, by simp, .close, fun _ => rfl⟩
  · next key line line' after =>
    obtain ⟨⟨v, mid⟩, first, second⟩ := bind_eq_ok read
    obtain ⟨used, rfl, expression, -⟩ := h.parse first
    obtain ⟨t, rfl, closes, rfl, rfl⟩ | ⟨t, more, es, ks, rfl, comma, rfl, rfl, others, named⟩ := h.moreArguments second
    · refine ⟨⟨.name key, line⟩ :: ⟨.equal, line'⟩ :: used ++ [t], [], [(key, v)], by simp, by simp, by simp, ?_, fun _ => rfl⟩
      have spelled : Arguments _ [(key, v)] _ := .lastNamed expression
      simpa [closes] using spelled
    · obtain rfl : es = [] := named (by simp)
      refine ⟨⟨.name key, line⟩ :: ⟨.equal, line'⟩ :: used ++ t :: more, [], (key, v) :: ks, by simp, by simp, by simp, ?_,
        fun _ => rfl⟩
      have spelled : Arguments _ ((key, v) :: ks) _ := .moreNamed expression others
      simpa [comma] using spelled
  · split at read
    · next none =>
      obtain rfl : kwargs = [] := isEmpty_iff.1 none
      obtain ⟨⟨v, mid⟩, first, second⟩ := bind_eq_ok read
      obtain ⟨used, rfl, expression, -⟩ := h.parse first
      obtain ⟨t, rfl, closes, rfl, rfl⟩ | ⟨t, more, es, ks, rfl, comma, rfl, rfl, others, -⟩ := h.moreArguments second
      · refine ⟨used ++ [t], [v], [], by simp, by simp, rfl, ?_, fun absurd => (absurd rfl).elim⟩
        have spelled := Arguments.last expression
        simpa [closes] using spelled
      · refine ⟨used ++ t :: more, v :: es, named, by simp, by simp, rfl, ?_, fun absurd => (absurd rfl).elim⟩
        have spelled := Arguments.more expression others
        simpa [comma] using spelled
    · cases read

theorem sound_moreArguments (h : Sound c n) {args : List Expr} {all} {kwargs : List (String × Expr)} {named ts rest}
    (read : Expr.moreArguments c (n + 1) args kwargs ts = .ok ((all, named), rest)) :
    (∃ t, ts = t :: rest ∧ t.tok = .rparen ∧ all = args.reverse ∧ named = kwargs.reverse) ∨
    (∃ t used es ks, ts = t :: used ++ rest ∧ t.tok = .comma ∧ all = args.reverse ++ es ∧
      named = kwargs.reverse ++ ks ∧ Arguments es ks (kinds used) ∧ (kwargs ≠ [] → es = [])) := by
  rw [Expr.moreArguments.eq_def] at read
  dsimp only at read
  split at read
  · next line after =>
    obtain ⟨used, es, ks, rfl, rfl, rfl, arguments, named⟩ := h.arguments read
    exact .inr ⟨_, used, es, ks, rfl, rfl, rfl, rfl, arguments, named⟩
  · obtain ⟨after, last, done⟩ := bind_eq_ok read
    obtain ⟨t, rfl, closes⟩ := expect_ok last
    obtain ⟨same, rfl⟩ := Prod.mk.inj (Except.ok.inj done)
    cases same
    exact .inl ⟨t, rfl, closes, rfl, rfl⟩

theorem sound_group (h : Sound c n) {t : Token} (opens : t.tok = .lparen) {ts rest e}
    (read : Expr.group c (n + 1) ts = .ok (e, rest)) : ∃ used, ts = used ++ rest ∧ Atom e (kinds (t :: used)) := by
  rw [Expr.group.eq_def] at read
  dsimp only at read
  split at read
  · next line after =>
    cases read
    refine ⟨[⟨.rparen, line⟩], rfl, ?_⟩
    rw [kinds_cons, opens]
    exact .unit
  · next other =>
    clear other
    obtain ⟨⟨v, mid⟩, first, second⟩ := bind_eq_ok read
    obtain ⟨used, rfl, expression, -⟩ := h.parse first
    dsimp only at second
    split at second
    · next line after =>
      cases second
      refine ⟨used ++ [⟨.rparen, line⟩], by simp, ?_⟩
      have spelled := Atom.group expression
      simpa [opens] using spelled
    · next other =>
      obtain ⟨⟨all, after⟩, others, last⟩ := bind_eq_ok second
      cases last
      obtain ⟨u, rfl, closes, -⟩ | ⟨u, more, es, rfl, comma, rfl, items⟩ := h.tupleRest others
      · obtain ⟨tok, line⟩ := u
        obtain rfl : tok = .rparen := closes
        exact absurd rfl (other line after)
      · refine ⟨used ++ u :: more, by simp, ?_⟩
        have spelled := Atom.tuple expression items
        simpa [opens, comma] using spelled

theorem sound_tupleRest (h : Sound c n) {read : List Expr} {all ts rest}
    (done : Expr.tupleRest c (n + 1) read ts = .ok (all, rest)) :
    (∃ t, ts = t :: rest ∧ t.tok = .rparen ∧ all = read.reverse) ∨
    (∃ t used es, ts = t :: used ++ rest ∧ t.tok = .comma ∧ all = read.reverse ++ es ∧
      Items .rparen es (kinds used)) := by
  rw [Expr.tupleRest.eq_def] at done
  dsimp only at done
  split at done
  · next line line' after =>
    cases done
    exact .inr ⟨_, [⟨.rparen, line'⟩], [], rfl, rfl, by simp, .close⟩
  · next line after _ =>
    obtain ⟨⟨v, mid⟩, first, second⟩ := bind_eq_ok done
    obtain ⟨used, rfl, expression, -⟩ := h.parse first
    right
    obtain ⟨u, rfl, closes, rfl⟩ | ⟨u, more, es, rfl, comma, rfl, items⟩ := h.tupleRest second
    · refine ⟨⟨.comma, line⟩, used ++ [u], [v], by simp, rfl, by simp, ?_⟩
      have spelled : Items .rparen _ _ := .last expression
      simpa [closes] using spelled
    · refine ⟨⟨.comma, line⟩, used ++ u :: more, v :: es, by simp, rfl, by simp, ?_⟩
      have spelled := Items.more expression items
      simpa [comma] using spelled
  · obtain ⟨after, last, same⟩ := bind_eq_ok done
    obtain ⟨t, rfl, closes⟩ := expect_ok last
    cases same
    exact .inl ⟨t, rfl, closes, rfl⟩

theorem sound_items (h : Sound c n) {read : List Expr} {all ts rest}
    (done : Expr.items c (n + 1) read ts = .ok (all, rest)) :
    ∃ used es, ts = used ++ rest ∧ all = read.reverse ++ es ∧ Items .rbracket es (kinds used) := by
  rw [Expr.items.eq_def] at done
  dsimp only at done
  split at done
  · next line after =>
    cases done
    exact ⟨[⟨.rbracket, line⟩], [], rfl, by simp, .close⟩
  · next other =>
    clear other
    obtain ⟨⟨v, mid⟩, first, second⟩ := bind_eq_ok done
    obtain ⟨used, rfl, expression, -⟩ := h.parse first
    dsimp only at second
    split at second
    · next line after =>
      obtain ⟨more, es, rfl, rfl, items⟩ := h.items second
      refine ⟨used ++ ⟨.comma, line⟩ :: more, v :: es, by simp, by simp, ?_⟩
      have spelled := Items.more expression items
      simpa using spelled
    · obtain ⟨after, last, same⟩ := bind_eq_ok second
      obtain ⟨t, rfl, closes⟩ := expect_ok last
      cases same
      refine ⟨used ++ [t], [v], by simp, by simp, ?_⟩
      have spelled : Items .rbracket _ _ := .last expression
      simpa [closes] using spelled

theorem sound_pairs (h : Sound c n) {read : List (Expr × Expr)} {all ts rest}
    (done : Expr.pairs c (n + 1) read ts = .ok (all, rest)) :
    ∃ used ps, ts = used ++ rest ∧ all = read.reverse ++ ps ∧ Pairs ps (kinds used) := by
  rw [Expr.pairs.eq_def] at done
  dsimp only at done
  split at done
  · next line after =>
    cases done
    exact ⟨[⟨.rbrace, line⟩], [], rfl, by simp, .close⟩
  · next other =>
    clear other
    obtain ⟨⟨k, mid⟩, first, second⟩ := bind_eq_ok done
    obtain ⟨used, rfl, key, -⟩ := h.parse first
    obtain ⟨after, between, third⟩ := bind_eq_ok second
    obtain ⟨t, rfl, colon⟩ := expect_ok between
    obtain ⟨⟨v, mid⟩, fourth, last⟩ := bind_eq_ok third
    obtain ⟨used', rfl, value, -⟩ := h.parse fourth
    dsimp only at last
    split at last
    · next line after =>
      obtain ⟨more, ps, rfl, rfl, pairs⟩ := h.pairs last
      refine ⟨used ++ t :: used' ++ ⟨.comma, line⟩ :: more, (k, v) :: ps, by simp, by simp, ?_⟩
      have spelled := Pairs.more key value pairs
      simpa [colon] using spelled
    · obtain ⟨after, ends, same⟩ := bind_eq_ok last
      obtain ⟨u, rfl, closes⟩ := expect_ok ends
      cases same
      refine ⟨used ++ t :: used' ++ [u], [(k, v)], by simp, by simp, ?_⟩
      have spelled := Pairs.last key value
      simpa [colon, closes] using spelled

theorem sound_atom (h : Sound c n) {ts rest e} (read : Expr.atom c (n + 1) ts = .ok (e, rest)) :
    ∃ used, ts = used ++ rest ∧ Atom e (kinds used) := by
  cases ts with
  | nil => cases read
  | cons t after =>
    have single : ∀ {a : Expr}, (.ok (a, after) : Except FaultAt (Expr × List Token)) = .ok (e, rest) → Atom a [t.tok] →
        ∃ used, t :: after = used ++ rest ∧ Atom e (kinds used) := by
      intro a read atom
      cases read
      exact ⟨[t], rfl, atom⟩
    rw [Expr.atom.eq_def] at read
    dsimp only at read
    split at read
    · next i here => exact single read (here ▸ .int i)
    · next x here => exact single read (here ▸ .float x)
    · next here =>
      split at read
      · next i line after =>
        cases read
        refine ⟨[t, ⟨.int i, line⟩], rfl, ?_⟩
        rw [kinds_cons, here]
        exact .negInt i
      · next x line after =>
        cases read
        refine ⟨[t, ⟨.float x, line⟩], rfl, ?_⟩
        rw [kinds_cons, here]
        exact .negFloat x
      · cases read
      · cases read
    · next s here => exact single read (here ▸ .str s)
    · next b here => exact single read (here ▸ .bytes b)
    · next here => exact single read (here ▸ .none)
    · next here => exact single read (here ▸ .true)
    · next here => exact single read (here ▸ .false)
    · next m _ _ _ here =>
      split at read
      · cases read
      · next free => exact single read (here ▸ .name (Bool.eq_false_iff.2 free))
    · next here =>
      obtain ⟨used, rfl, atom⟩ := h.group here read
      exact ⟨t :: used, rfl, atom⟩
    · next here =>
      obtain ⟨⟨all, mid⟩, first, last⟩ := bind_eq_ok read
      cases last
      obtain ⟨used, es, rfl, rfl, items⟩ := h.items first
      refine ⟨t :: used, rfl, ?_⟩
      rw [kinds_cons, here]
      exact .list items
    · next here =>
      obtain ⟨⟨all, mid⟩, first, last⟩ := bind_eq_ok read
      cases last
      obtain ⟨used, ps, rfl, rfl, pairs⟩ := h.pairs first
      refine ⟨t :: used, rfl, ?_⟩
      rw [kinds_cons, here]
      exact .dict pairs
    all_goals cases read

/-- What the expression parser reads is spelled by the tokens it consumed. The induction is on the fuel. -/
theorem sound (c n) : Sound c n := by
  induction n with
  | zero => exact sound_zero
  | succ n h =>
    exact ⟨sound_parse h, sound_calls h, sound_arguments h, sound_moreArguments h, sound_atom h,
      fun opens => sound_group h opens, sound_tupleRest h, sound_items h, sound_pairs h⟩

end Soundness

/-! ## What the parser accepts -/

def Lacks (tok : Tok) (ts : List Token) : Prop := ∀ t ∈ ts.head?, t.tok ≠ tok

/-- A token an expression can start with. -/
def starts : Tok → Bool
  | .int _ | .float _ | .minus | .str _ | .bytes _ | .name _ | .lparen | .lbracket | .lbrace => true
  | _ => false

theorem Atom.starts (h : Atom e ts) : ∃ t us, ts = t :: us ∧ starts t = .true := by
  cases h <;> exact ⟨_, _, rfl, rfl⟩

theorem Expression.starts (h : Expression e ts) : ∃ t us, ts = t :: us ∧ Grammar.starts t = true := by
  obtain ⟨atom, -⟩ := h
  obtain ⟨t, us, rfl, first⟩ := atom.starts
  exact ⟨t, _, rfl, first⟩

/-- No expression starts with a name and an equals sign, so a keyword argument is told from a positional one. -/
theorem Atom.second (h : Atom e (t :: ts)) : ts.head? ≠ some .equal := by
  have inner : ∀ {e : Expr} {us vs : List Tok}, Expression e us → (us ++ vs).head? ≠ some .equal := by
    intro e us vs expression equal
    obtain ⟨u, us, rfl, first⟩ := expression.starts
    obtain rfl : u = .equal := Option.some.inj equal
    cases first
  cases h with
  | group expression => exact inner expression
  | tuple expression => exact inner expression
  | list items =>
    cases items with
    | close => simp
    | last expression => exact inner expression
    | more expression => exact inner expression
  | dict pairs =>
    cases pairs with
    | close => simp
    | last key =>
      rw [append_assoc]
      exact inner key
    | more key =>
      rw [append_assoc]
      exact inner key
  | _ => simp

theorem kinds_eq_cons (h : kinds ts = u :: us) : ∃ line rest, ts = ⟨u, line⟩ :: rest ∧ kinds rest = us := by
  obtain ⟨t, rest, rfl, rfl, rfl⟩ := map_eq_cons_iff.1 h
  exact ⟨t.line, rest, rfl, rfl⟩

theorem kinds_eq_singleton (h : kinds ts = [u]) : ∃ line, ts = [⟨u, line⟩] := by
  obtain ⟨line, rest, rfl, none⟩ := kinds_eq_cons h
  obtain rfl := map_eq_nil_iff.1 none
  exact ⟨line, rfl⟩

theorem kinds_eq_append (h : kinds ts = us ++ vs) :
    ∃ first rest, ts = first ++ rest ∧ kinds first = us ∧ kinds rest = vs := by
  obtain ⟨first, rest, rfl, rfl, rfl⟩ := map_eq_append_iff.1 h
  exact ⟨first, rest, rfl, rfl, rfl⟩

theorem kinds_eq_middle (h : kinds ts = us ++ u :: vs) :
    ∃ first line rest, ts = first ++ ⟨u, line⟩ :: rest ∧ kinds first = us ∧ kinds rest = vs := by
  obtain ⟨first, others, rfl, rfl, same⟩ := kinds_eq_append h
  obtain ⟨line, rest, rfl, rfl⟩ := kinds_eq_cons same
  exact ⟨first, line, rest, rfl, rfl, rfl⟩

theorem lacks_cons (h : t.tok ≠ tok) : Lacks tok (t :: ts) := by
  intro u first
  obtain rfl : t = u := Option.some.inj first
  exact h

theorem ends_cons (tok line ts) (other : tok ≠ .lparen) : Ends (⟨tok, line⟩ :: ts) := lacks_cons other

theorem lacks_of_expression (spelled : kinds ts = us ++ vs) (h : Expression e us) (other : starts tok = false) :
    Lacks tok (ts ++ rest) := by
  obtain ⟨u, us, rfl, first⟩ := h.starts
  obtain ⟨line, after, rfl, -⟩ := kinds_eq_cons spelled
  apply lacks_cons
  intro clash
  rw [← clash, first] at other
  cases other

section Steps
variable {c : ParseContext} {n line : Nat} {ts rest : List Token} {v : Expr}

theorem calls_ends (h : Ends ts) (f) : Expr.calls c (n + 1) f ts = .ok (f, ts) := by
  rw [Expr.calls.eq_def]
  dsimp only
  split
  · exact absurd rfl (h _ rfl)
  · rfl

theorem expect_same : c.expect tok what (⟨tok, line⟩ :: rest) = .ok rest := if_pos rfl

theorem moreArguments_close (fuel : 0 < n) :
    Expr.moreArguments c n args kwargs (⟨.rparen, line⟩ :: rest) = .ok ((args.reverse, kwargs.reverse), rest) := by
  obtain ⟨n, rfl⟩ := Nat.exists_eq_succ_of_ne_zero (Nat.pos_iff_ne_zero.1 fuel)
  rw [Expr.moreArguments.eq_def]
  dsimp only
  rw [expect_same]
  rfl

theorem tupleRest_close {read} (fuel : 0 < n) :
    Expr.tupleRest c n read (⟨.rparen, line⟩ :: rest) = .ok (read.reverse, rest) := by
  obtain ⟨n, rfl⟩ := Nat.exists_eq_succ_of_ne_zero (Nat.pos_iff_ne_zero.1 fuel)
  rw [Expr.tupleRest.eq_def]
  dsimp only
  rw [expect_same]
  rfl

theorem atom_name (free : isKeyword m = false) :
    Expr.atom c (n + 1) (⟨.name m, line⟩ :: rest) = .ok (.name m, rest) := by
  rw [Expr.atom.eq_def]
  dsimp only
  split
  case h_6 | h_7 | h_8 =>
    next same =>
    cases same
    cases free
  case h_9 same =>
    cases same
    exact if_neg (Bool.eq_false_iff.1 free)
  all_goals contradiction

theorem items_last {read} (first : Lacks .rbracket ts) (parsed : Expr.parse c n ts = .ok (v, ⟨.rbracket, line⟩ :: rest)) :
    Expr.items c (n + 1) read ts = .ok ((v :: read).reverse, rest) := by
  rw [Expr.items.eq_def]
  dsimp only
  split
  · exact absurd rfl (first _ rfl)
  · rw [parsed]
    rfl

theorem items_more {read} (first : Lacks .rbracket ts) (parsed : Expr.parse c n ts = .ok (v, ⟨.comma, line⟩ :: rest)) :
    Expr.items c (n + 1) read ts = Expr.items c n (v :: read) rest := by
  rw [Expr.items.eq_def]
  dsimp only
  split
  · exact absurd rfl (first _ rfl)
  · rw [parsed]
    rfl

theorem tupleRest_more {read comma} (first : Lacks .rparen ts) (parsed : Expr.parse c n ts = .ok (v, rest)) :
    Expr.tupleRest c (n + 1) read (⟨.comma, comma⟩ :: ts) = Expr.tupleRest c n (v :: read) rest := by
  rw [Expr.tupleRest.eq_def]
  dsimp only
  split
  · next same =>
    cases same
    exact absurd rfl (first _ rfl)
  · next same =>
    cases same
    rw [parsed]
    rfl
  · next other => exact absurd rfl (other _ _)

theorem group_single (first : Lacks .rparen ts) (parsed : Expr.parse c n ts = .ok (v, ⟨.rparen, line⟩ :: rest)) :
    Expr.group c (n + 1) ts = .ok (v, rest) := by
  rw [Expr.group.eq_def]
  dsimp only
  split
  · exact absurd rfl (first _ rfl)
  · rw [parsed]
    rfl

theorem group_tuple {all after} (first : Lacks .rparen ts)
    (parsed : Expr.parse c n ts = .ok (v, ⟨.comma, line⟩ :: rest))
    (others : Expr.tupleRest c n [v] (⟨.comma, line⟩ :: rest) = .ok (all, after)) :
    Expr.group c (n + 1) ts = .ok (.tuple all, after) := by
  rw [Expr.group.eq_def]
  dsimp only
  split
  · exact absurd rfl (first _ rfl)
  · rw [parsed]
    dsimp only [bind, Except.bind]
    rw [others]
    rfl

theorem pairs_last {k colon us read} (first : Lacks .rbrace ts)
    (key : Expr.parse c n ts = .ok (k, ⟨.colon, colon⟩ :: us))
    (value : Expr.parse c n us = .ok (v, ⟨.rbrace, line⟩ :: rest)) :
    Expr.pairs c (n + 1) read ts = .ok (((k, v) :: read).reverse, rest) := by
  rw [Expr.pairs.eq_def]
  dsimp only
  split
  · exact absurd rfl (first _ rfl)
  · rw [key]
    dsimp only [bind, Except.bind]
    rw [expect_same]
    dsimp only
    rw [value]
    rfl

theorem pairs_more {k colon us read} (first : Lacks .rbrace ts)
    (key : Expr.parse c n ts = .ok (k, ⟨.colon, colon⟩ :: us))
    (value : Expr.parse c n us = .ok (v, ⟨.comma, line⟩ :: rest)) :
    Expr.pairs c (n + 1) read ts = Expr.pairs c n ((k, v) :: read) rest := by
  rw [Expr.pairs.eq_def]
  dsimp only
  split
  · exact absurd rfl (first _ rfl)
  · rw [key]
    dsimp only [bind, Except.bind]
    rw [expect_same]
    dsimp only
    rw [value]

theorem arguments_positional (first : Lacks .rparen ts) (unnamed : ∀ t after, ts = t :: after → Lacks .equal after)
    (parsed : Expr.parse c n ts = .ok (v, rest)) :
    Expr.arguments c (n + 1) args [] ts = Expr.moreArguments c n (v :: args) [] rest := by
  rw [Expr.arguments.eq_def]
  dsimp only
  split
  · exact absurd rfl (first _ rfl)
  · exact absurd rfl (unnamed _ _ rfl _ rfl)
  · rw [isEmpty_nil, if_pos rfl, parsed]
    rfl

theorem arguments_named (parsed : Expr.parse c n ts = .ok (v, rest)) :
    Expr.arguments c (n + 1) args kwargs (⟨.name key, at'⟩ :: ⟨.equal, equal⟩ :: ts) =
      Expr.moreArguments c n args ((key, v) :: kwargs) rest := by
  rw [Expr.arguments.eq_def]
  dsimp only
  rw [parsed]
  rfl

end Steps

theorem unnamed_of_expression (spelled : kinds ts = us) (h : Expression e us) (next : Lacks .equal rest) :
    ∀ t after, ts ++ rest = t :: after → Lacks .equal after := by
  intro t after same
  obtain ⟨atom, calls⟩ := h
  obtain ⟨u, us, rfl, -⟩ := atom.starts
  obtain ⟨line, more, rfl, others⟩ := kinds_eq_cons spelled
  obtain ⟨-, rfl⟩ := List.cons.inj same
  cases more with
  | nil => exact next
  | cons t' more =>
    apply lacks_cons
    have second := atom.second
    cases us with
    | cons u' us =>
      have here : t'.tok = u' := (List.cons.inj others).1
      simpa [here] using second
    | nil =>
      cases calls with
      | done => cases others
      | call =>
        have here : t'.tok = .lparen := (List.cons.inj others).1
        simp [here]

theorem unnamed_of_spelled (spelled : kinds ts = us ++ u :: vs) (h : Expression e us) (other : u ≠ .equal) :
    ∀ t after, ts ++ rest = t :: after → Lacks .equal after := by
  obtain ⟨first, line, more, rfl, same, -⟩ := kinds_eq_middle spelled
  rw [append_assoc]
  exact unnamed_of_expression same h (lacks_cons other)

/-- What the functions of the expression parser accept with fuel `n`: four units for each token are enough. -/
structure Complete (c : ParseContext) (n : Nat) : Prop where
  parse : ∀ {ts us e rest}, kinds ts = us → Expression e us → Ends rest → 4 * ts.length ≤ n →
    Expr.parse c n (ts ++ rest) = .ok (e, rest)
  calls : ∀ {f ts us e rest}, kinds ts = us → Calls f e us → Ends rest → 4 * ts.length < n →
    Expr.calls c n f (ts ++ rest) = .ok (e, rest)
  arguments : ∀ {args kwargs ts us es ks rest}, kinds ts = us → Arguments es ks us → (kwargs ≠ [] → es = []) →
    4 * ts.length < n →
    Expr.arguments c n args kwargs (ts ++ rest) = .ok ((args.reverse ++ es, kwargs.reverse ++ ks), rest)
  moreArguments : ∀ {line args kwargs ts us es ks rest}, kinds ts = us → Arguments es ks us → (kwargs ≠ [] → es = []) →
    4 * ts.length + 4 ≤ n →
    Expr.moreArguments c n args kwargs (⟨.comma, line⟩ :: ts ++ rest) =
      .ok ((args.reverse ++ es, kwargs.reverse ++ ks), rest)
  atom : ∀ {ts us e rest}, kinds ts = us → Atom e us → 4 * ts.length ≤ n + 1 →
    Expr.atom c n (ts ++ rest) = .ok (e, rest)
  group : ∀ {ts us e rest}, kinds ts = us → Atom e (.lparen :: us) → 4 * ts.length < n →
    Expr.group c n (ts ++ rest) = .ok (e, rest)
  tupleRest : ∀ {line read ts us es rest}, kinds ts = us → Items .rparen es us → 4 * ts.length + 4 ≤ n →
    Expr.tupleRest c n read (⟨.comma, line⟩ :: ts ++ rest) = .ok (read.reverse ++ es, rest)
  items : ∀ {read ts us es rest}, kinds ts = us → Items .rbracket es us → 4 * ts.length < n →
    Expr.items c n read (ts ++ rest) = .ok (read.reverse ++ es, rest)
  pairs : ∀ {read ts us ps rest}, kinds ts = us → Pairs ps us → 4 * ts.length < n →
    Expr.pairs c n read (ts ++ rest) = .ok (read.reverse ++ ps, rest)

section Completeness
variable {c : ParseContext} {n : Nat}

theorem Atom.length_pos (h : Atom e us) : 0 < us.length := by
  obtain ⟨t, us, rfl, -⟩ := h.starts
  exact Nat.succ_pos _

theorem complete_zero : Complete c 0 where
  parse spelled h _ fits := by
    obtain ⟨t, us, rfl, -⟩ := h.starts
    have := congrArg List.length spelled
    simp at this
    omega
  calls _ _ _ fits := absurd fits (Nat.not_lt_zero _)
  arguments _ _ _ fits := absurd fits (Nat.not_lt_zero _)
  moreArguments _ _ _ fits := by omega
  atom spelled h fits := by
    have := h.length_pos
    rw [← spelled, length_kinds] at this
    omega
  group _ _ fits := absurd fits (Nat.not_lt_zero _)
  tupleRest _ _ fits := by omega
  items _ _ fits := absurd fits (Nat.not_lt_zero _)
  pairs _ _ fits := absurd fits (Nat.not_lt_zero _)

section
variable (h : Complete c n)
include h

theorem Complete.before (spelled : kinds ts = us ++ u :: vs) (expression : Expression e us) (other : u ≠ .lparen)
    (fits : 4 * ts.length ≤ n) (rest) : ∃ line after, kinds after = vs ∧ after.length < ts.length ∧
      Expr.parse c n (ts ++ rest) = .ok (e, ⟨u, line⟩ :: (after ++ rest)) := by
  obtain ⟨first, line, after, rfl, rfl, rfl⟩ := kinds_eq_middle spelled
  rw [length_append, length_cons] at fits
  refine ⟨line, after, rfl, by simp; omega, ?_⟩
  rw [append_assoc]
  exact h.parse rfl expression (ends_cons u line (after ++ rest) other) (by omega)

theorem Complete.beforeLast (spelled : kinds ts = us ++ [u]) (expression : Expression e us) (other : u ≠ .lparen)
    (fits : 4 * ts.length ≤ n) (rest) :
    ∃ line, 0 < ts.length ∧ Expr.parse c n (ts ++ rest) = .ok (e, ⟨u, line⟩ :: rest) := by
  obtain ⟨line, after, none, shorter, parsed⟩ := h.before spelled expression other fits rest
  obtain rfl := map_eq_nil_iff.1 none
  exact ⟨line, shorter, parsed⟩

theorem complete_parse (spelled : kinds ts = us) (expression : Expression e us) (ends : Ends rest)
    (fits : 4 * ts.length ≤ n + 1) : Expr.parse c (n + 1) (ts ++ rest) = .ok (e, rest) := by
  obtain ⟨atom, calls⟩ := expression
  obtain ⟨first, more, rfl, rfl, rfl⟩ := kinds_eq_append spelled
  have some := atom.length_pos
  rw [length_kinds] at some
  rw [length_append] at fits
  rw [Expr.parse, append_assoc, h.atom rfl atom (by omega)]
  exact h.calls rfl calls ends (by omega)

theorem complete_calls (spelled : kinds ts = us) (calls : Calls f e us) (ends : Ends rest)
    (fits : 4 * ts.length < n + 1) : Expr.calls c (n + 1) f (ts ++ rest) = .ok (e, rest) := by
  cases calls with
  | done =>
    obtain rfl := map_eq_nil_iff.1 spelled
    exact calls_ends ends f
  | call arguments calls =>
    obtain ⟨line, after, rfl, others⟩ := kinds_eq_cons spelled
    obtain ⟨first, more, rfl, rfl, rfl⟩ := kinds_eq_append others
    rw [length_cons, length_append] at fits
    rw [Expr.calls.eq_def, cons_append, append_assoc]
    dsimp only
    rw [h.arguments rfl arguments (fun absurd => (absurd rfl).elim) (by omega)]
    exact h.calls rfl calls ends (by omega)

theorem complete_arguments (spelled : kinds ts = us) (arguments : Arguments es ks us) (named : kwargs ≠ [] → es = [])
    (fits : 4 * ts.length < n + 1) : Expr.arguments c (n + 1) args kwargs (ts ++ rest) =
      .ok ((args.reverse ++ es, kwargs.reverse ++ ks), rest) := by
  have positional : ∀ {e : Expr} {es : List Expr}, (kwargs ≠ [] → e :: es = []) → kwargs = [] := by
    intro e es named
    cases kwargs with
    | nil => rfl
    | cons => cases named (by simp)
  cases arguments with
  | close =>
    obtain ⟨line, rfl⟩ := kinds_eq_singleton spelled
    simp [Expr.arguments]
  | last expression =>
    obtain rfl := positional named
    obtain ⟨line, some, parsed⟩ := h.beforeLast spelled expression (by simp) (by omega) rest
    rw [arguments_positional (lacks_of_expression spelled expression rfl)
      (unnamed_of_spelled spelled expression (by simp)) parsed, moreArguments_close (by omega)]
    simp
  | more expression others =>
    obtain rfl := positional named
    obtain ⟨line, after, same, shorter, parsed⟩ := h.before spelled expression (by simp) (by omega) rest
    rw [arguments_positional (lacks_of_expression spelled expression rfl)
      (unnamed_of_spelled spelled expression (by simp)) parsed, ← cons_append,
      h.moreArguments same others (fun absurd => (absurd rfl).elim) (by omega)]
    simp
  | lastNamed expression =>
    obtain ⟨line, after, rfl, spelled'⟩ := kinds_eq_cons spelled
    obtain ⟨line', after, rfl, same⟩ := kinds_eq_cons spelled'
    simp only [length_cons] at fits
    obtain ⟨line, -, parsed⟩ := h.beforeLast same expression (by simp) (by omega) rest
    simp only [cons_append]
    rw [arguments_named parsed, moreArguments_close (by omega)]
    simp
  | moreNamed expression others =>
    obtain ⟨line, after, rfl, spelled'⟩ := kinds_eq_cons spelled
    obtain ⟨line', after, rfl, same⟩ := kinds_eq_cons spelled'
    simp only [length_cons] at fits
    obtain ⟨line, after, same, shorter, parsed⟩ := h.before same expression (by simp) (by omega) rest
    simp only [cons_append]
    rw [arguments_named parsed, ← cons_append, h.moreArguments same others (fun _ => rfl) (by omega)]
    simp

theorem complete_moreArguments (spelled : kinds ts = us) (arguments : Arguments es ks us)
    (named : kwargs ≠ [] → es = []) (fits : 4 * ts.length + 4 ≤ n + 1) :
    Expr.moreArguments c (n + 1) args kwargs (⟨.comma, line⟩ :: ts ++ rest) =
      .ok ((args.reverse ++ es, kwargs.reverse ++ ks), rest) := by
  rw [Expr.moreArguments.eq_def, cons_append]
  exact h.arguments spelled arguments named (by omega)

theorem complete_atom (spelled : kinds ts = us) (atom : Atom e us) (fits : 4 * ts.length ≤ n + 1 + 1) :
    Expr.atom c (n + 1) (ts ++ rest) = .ok (e, rest) := by
  obtain ⟨u, us, rfl, -⟩ := atom.starts
  obtain ⟨line, after, rfl, others⟩ := kinds_eq_cons spelled
  rw [length_cons] at fits
  have grouped : u = .lparen → Expr.atom c (n + 1) (⟨u, line⟩ :: after ++ rest) = .ok (e, rest) := by
    rintro rfl
    exact h.group others atom (by omega)
  cases atom with
  | unit | group | tuple => exact grouped rfl
  | list items =>
    rw [Expr.atom.eq_def, cons_append]
    dsimp only
    rw [h.items others items (by omega)]
    rfl
  | dict pairs =>
    rw [Expr.atom.eq_def, cons_append]
    dsimp only
    rw [h.pairs others pairs (by omega)]
    rfl
  | name free =>
    obtain rfl := map_eq_nil_iff.1 others
    exact atom_name free
  | negInt i =>
    obtain ⟨line, rfl⟩ := kinds_eq_singleton others
    rfl
  | negFloat x =>
    obtain ⟨line, rfl⟩ := kinds_eq_singleton others
    rfl
  | _ =>
    obtain rfl := map_eq_nil_iff.1 others
    rfl

theorem complete_group (spelled : kinds ts = us) (atom : Atom e (.lparen :: us)) (fits : 4 * ts.length < n + 1) :
    Expr.group c (n + 1) (ts ++ rest) = .ok (e, rest) := by
  cases atom with
  | unit =>
    obtain ⟨line, rfl⟩ := kinds_eq_singleton spelled
    rfl
  | group expression =>
    obtain ⟨line, -, parsed⟩ := h.beforeLast spelled expression (by simp) (by omega) rest
    exact group_single (lacks_of_expression spelled expression rfl) parsed
  | tuple expression items =>
    obtain ⟨line, after, same, shorter, parsed⟩ := h.before spelled expression (by simp) (by omega) rest
    exact group_tuple (lacks_of_expression spelled expression rfl) parsed (h.tupleRest same items (by omega))

theorem complete_tupleRest {line read es ts rest us} (spelled : kinds ts = us)
    (items : Items .rparen es us) (fits : 4 * ts.length + 4 ≤ n + 1) :
    Expr.tupleRest c (n + 1) read (⟨.comma, line⟩ :: ts ++ rest) = .ok (read.reverse ++ es, rest) := by
  cases items with
  | close =>
    obtain ⟨line, rfl⟩ := kinds_eq_singleton spelled
    simp [Expr.tupleRest]
  | last expression =>
    obtain ⟨line, some, parsed⟩ := h.beforeLast spelled expression (by simp) (by omega) rest
    rw [cons_append, tupleRest_more (lacks_of_expression spelled expression rfl) parsed, tupleRest_close (by omega)]
    simp
  | more expression others =>
    obtain ⟨line, after, same, shorter, parsed⟩ := h.before spelled expression (by simp) (by omega) rest
    rw [cons_append, tupleRest_more (lacks_of_expression spelled expression rfl) parsed, ← cons_append,
      h.tupleRest same others (by omega)]
    simp

theorem complete_items {read es ts rest us} (spelled : kinds ts = us) (items : Items .rbracket es us)
    (fits : 4 * ts.length < n + 1) : Expr.items c (n + 1) read (ts ++ rest) = .ok (read.reverse ++ es, rest) := by
  cases items with
  | close =>
    obtain ⟨line, rfl⟩ := kinds_eq_singleton spelled
    simp [Expr.items]
  | last expression =>
    obtain ⟨line, -, parsed⟩ := h.beforeLast spelled expression (by simp) (by omega) rest
    rw [items_last (lacks_of_expression spelled expression rfl) parsed]
    simp
  | more expression others =>
    obtain ⟨line, after, same, shorter, parsed⟩ := h.before spelled expression (by simp) (by omega) rest
    rw [items_more (lacks_of_expression spelled expression rfl) parsed, h.items same others (by omega)]
    simp

theorem complete_pairs {read ps ts rest us} (spelled : kinds ts = us) (pairs : Pairs ps us)
    (fits : 4 * ts.length < n + 1) : Expr.pairs c (n + 1) read (ts ++ rest) = .ok (read.reverse ++ ps, rest) := by
  cases pairs with
  | close =>
    obtain ⟨line, rfl⟩ := kinds_eq_singleton spelled
    simp [Expr.pairs]
  | last key value =>
    rw [append_assoc] at spelled
    obtain ⟨colon, after, same, shorter, keyed⟩ := h.before spelled key (by simp) (by omega) rest
    obtain ⟨line, -, valued⟩ := h.beforeLast same value (by simp) (by omega) rest
    rw [pairs_last (lacks_of_expression spelled key rfl) keyed valued]
    simp
  | more key value others =>
    rw [append_assoc] at spelled
    obtain ⟨colon, after, same, shorter, keyed⟩ := h.before spelled key (by simp) (by omega) rest
    obtain ⟨line, after', same, shorter', valued⟩ := h.before same value (by simp) (by omega) rest
    rw [pairs_more (lacks_of_expression spelled key rfl) keyed valued, h.pairs same others (by omega)]
    simp

end

theorem complete (c n) : Complete c n := by
  induction n with
  | zero => exact complete_zero
  | succ n h =>
    exact ⟨complete_parse h, complete_calls h, complete_arguments h, complete_moreArguments h, complete_atom h,
      complete_group h, complete_tupleRest h, complete_items h, complete_pairs h⟩

end Completeness

/-! ## Brackets -/

/-- The number of open brackets after a token. -/
def nest (d : Nat) : Tok → Nat
  | .lparen | .lbracket | .lbrace => d + 1
  | .rparen | .rbracket | .rbrace => d - 1
  | _ => d

/-- Expressions close the brackets they open. The induction is on the derivation; arguments, items and pairs close one
bracket more, the one in front of them. -/
theorem Expression.balanced (h : Expression e ts) (d) : ts.foldl nest d = d := by
  refine @Expression.rec (fun _ ts _ => ∀ d, ts.foldl nest d = d) (fun _ _ ts _ => ∀ d, ts.foldl nest d = d)
    (fun _ _ ts _ => ∀ d, ts.foldl nest (d + 1) = d) (fun _ ts _ => ∀ d, ts.foldl nest d = d)
    (fun close _ ts _ => (∀ d, nest (d + 1) close = d) → ∀ d, ts.foldl nest (d + 1) = d)
    (fun _ ts _ => ∀ d, ts.foldl nest (d + 1) = d)
    ?intro ?done ?call ?noArguments ?lastArgument ?moreArguments ?lastNamed ?moreNamed ?int ?float ?negInt ?negFloat ?str
    ?bytes ?none ?true ?false ?name ?unit ?group ?tuple ?list ?dict ?noItems ?lastItem ?moreItems ?noPairs ?lastPair
    ?morePairs e ts h d
  case intro =>
    intro a e ts us _ _ atom calls d
    rw [foldl_append, atom, calls]
  case call =>
    intro f e args kwargs ts us _ _ arguments calls d
    rw [foldl_append, foldl_cons, nest, arguments, calls]
  case lastArgument | lastNamed | group =>
    intros
    simp_all [nest]
  case moreArguments | moreNamed =>
    intros
    simp_all [nest]
  case tuple =>
    intro e es ts us _ _ expression items d
    have closes := items (fun _ => rfl)
    simp [nest, expression, closes]
  case list =>
    intro es ts _ items d
    exact items (fun _ => rfl) d
  case dict =>
    intro ps ts _ pairs d
    exact pairs d
  case noItems =>
    intro close closes d
    exact closes d
  case lastItem =>
    intro close e ts _ expression closes d
    simp [expression, closes]
  case moreItems =>
    intro close e es ts us _ _ expression items closes d
    simp [nest, expression, items closes]
  case lastPair =>
    intro k v ts us _ _ key value d
    simp [nest, key, value]
  case morePairs =>
    intro k v ps ts us ws _ _ _ key value pairs d
    simp [nest, key, value, pairs]
  all_goals
    intros
    rfl

end Grammar
end MonitoredVm
