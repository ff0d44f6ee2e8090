import MonitoredVm.Proofs.Twins

/-!
# Delivering branches

A callback registered for `BRANCH` hears of both directions through a check on the deciding instruction, which is to tell
that the branch has been disabled. As long as the check passes and the tool disables nothing, it makes no difference
whether the callback is registered for `BRANCH` or for each direction by itself. It passes wherever somebody watches the
event of the deciding instruction. Conditional jumps and `FOR_ITER` report a direction themselves, so the tool that is
called watches them; but the `END_SEND` of an asynchronous loop reports `STOP_ITERATION` and nothing else.

Main statement: `branch_delivery`. The run with the checks is followed step by step by the run without (`Act.Follows`),
as twin worlds; that they pass is told from the history of the first run alone (`reached_of_watched`).
-/

namespace MonitoredVm

/-! ## Calls that pass -/

/-- The call is as one without the check: the callback was reached, and did not disable. -/
def Call.Passes (t : Nat) (c : Call) : Prop :=
  c.args.tool = t → ∀ k right, c.callable = .branch k right → c.reached = true ∧ c.disables = false

/-- All calls of the tool have passed. -/
def World.Passing (t : Nat) (w : World) : Prop :=
  ∀ i, i < w.codes.size → EachAnswer (fun c _ => c.Passes t) (w.entry i).state.history

theorem World.Passing.before (h : w'.Passing t) (moved : Moves rule w w') : w.Passing t := by
  intro i lt
  obtain ⟨more, grown, -⟩ := moved.history lt
  have later := h i (moved.code_eq lt).1
  rw [grown] at later
  exact later.earlier

theorem Event.ne_direction (isLocal : event.isLocal = false) (right) : event ≠ Event.direction right := by
  rintro rfl
  cases right <;> cases isLocal

theorem Call.sibling_of_stays {c : Call} (stays : c.disables = false) (code) : c.sibling? code = none := by
  unfold sibling?
  rw [stays, Bool.and_false]
  cases c.callable <;> rfl

/-! ## Following step by step -/

namespace CodeState
variable {t : Nat} {s s' : CodeState}

theorem retold_heed (s : CodeState) (code c h) :
    (s.retold h).heed code c = (s.heed code c).retold (.answered c :: h) := by
  have sibling : (s.retold h).heedSibling code c = (s.heedSibling code c).retold (.answered c :: h) := by
    unfold heedSibling
    split
    · exact (s.retold (.answered c :: s.history)).retold_remove ..
    · rfl
  rw [heed_eq, heed_eq, sibling]
  split
  · exact retold_remove ..
  · rfl

theorem heed_of_stays (s : CodeState) (code) {c : Call} (stays : c.disables = false) :
    s.heed code c = s.retold (.answered c :: s.history) := by
  unfold heed
  rw [Call.sibling_of_stays stays, stays]
  rfl

theorem Twin.heed (h : Twin t s s') (code c) : Twin t (s.heed code c) (s'.heed code c) := by
  obtain ⟨past, accounts, rfl⟩ := h
  refine ⟨.answered c :: past, ?_, s.retold_heed code c past⟩
  rw [history_heed]
  exact .cons (.same _) accounts

theorem Twin.heed_plain (h : Twin t s s') (code) (tool : c.args.tool = t) (callable : c.callable = .branch k right)
    (stays : c.disables = false) : Twin t (s.heed code c) (s'.heed code { c with callable := .direct k }) := by
  obtain ⟨past, accounts, rfl⟩ := h
  refine ⟨.answered { c with callable := .direct k } :: past, ?_, ?_⟩
  · rw [history_heed]
    exact .cons (.plain tool callable) accounts
  · have stays' : Call.disables { c with callable := .direct k } = false := stays
    rw [heed_of_stays _ code stays, heed_of_stays _ code stays']
    rfl

end CodeState

namespace World.Twin
variable {t : Nat} {w v : World}

theorem reaches_eq (h : Twin t w v) (c a) : v.reaches c a = w.reaches c a := by
  obtain ⟨past, -, same⟩ := (h.entry a.code).state
  unfold reaches
  dsimp only
  rw [same, (h.entry a.code).code]
  rfl

theorem slot_eq (h : Twin t w v) (i offset) : (v.entry i).state.slot offset = (w.entry i).state.slot offset := by
  obtain ⟨past, -, same⟩ := (h.entry i).state
  rw [same]
  rfl

end World.Twin

namespace Act
variable {α β : Type} {t : Nat} {w v : World}

/-- If all calls passed, the second operation does what the first one does. -/
def Follows (t : Nat) (w v : World) (x y : Act α) : Prop := (exec x w).2.Passing t → Beside t Eq w v x y

theorem Beside.follows (h : Beside t Eq w v x y) : Follows t w v x y := fun _ => h

/-- The first operation does the same on both sides, at least if all calls pass that come after it. -/
theorem follows_bind (first : (exec (x >>= f) w).2.Passing t → Beside t Eq w v x y)
    (rest : ∀ a w' v', exec x w = (.ok a, w') → World.Twin t w' v' → Follows t w' v' (f a) (g a)) :
    Follows t w v (x >>= f) (y >>= g) := by
  intro passing
  obtain ⟨outcome, twins⟩ := first passing
  unfold Beside
  rw [exec_bind] at passing
  rw [exec_bind, exec_bind]
  rcases ran : exec x w with ⟨r, w'⟩
  rcases ran' : exec y v with ⟨r', v'⟩
  rw [ran] at passing
  rw [ran, ran'] at outcome twins
  cases outcome with
  | error why => exact ⟨.error why, twins⟩
  | ok same =>
    obtain rfl := same
    exact rest _ w' v' ran twins passing

theorem Beside.followed (first : Beside t Eq w v x y)
    (rest : ∀ a w' v', exec x w = (.ok a, w') → World.Twin t w' v' → Follows t w' v' (f a) (g a)) :
    Follows t w v (x >>= f) (y >>= g) :=
  follows_bind (fun _ => first) rest

theorem Follows.bind (first : Follows t w v x y) (later : ∀ a w', exec x w = (.ok a, w') → Within Rule.any w' (f a))
    (rest : ∀ a w' v', exec x w = (.ok a, w') → World.Twin t w' v' → Follows t w' v' (f a) (g a)) :
    Follows t w v (x >>= f) (y >>= g) := by
  refine follows_bind (fun passing => first ?_) rest
  rw [exec_bind] at passing
  rcases ran : exec x w with ⟨why | a, w'⟩ <;> rw [ran] at passing
  · exact passing
  · exact passing.before (later a w' ran)

theorem Follows.get (h : Follows t w v (f w) (g v)) : Follows t w v (get >>= f) (get >>= g) := h

section
variable (h : World.Twin t w v)
include h

/-- What is called and what it is called with; the answers are the same if both are reached or neither is. -/
theorem beside_invoke (th layer slot) (callback : c'.callback = c.callback) (reached : v.reaches c' a = w.reaches c a) :
    Beside t (fun x y => x.callable = c ∧ y = { x with callable := c' }) w v (invoke th layer slot c a)
      (invoke th layer slot c' a) := by
  have marked := h.setThread th { w.thread th with tracing := (w.thread th).tracing + 1, current := some a.event }
  have called := marked.call c.callback a
  have unmarked : ∀ {w₂ v₂ : World}, World.Twin t w₂ v₂ → World.Twin t
      (w₂.setThread th { w₂.thread th with tracing := (w₂.thread th).tracing - 1, current := (w.thread th).current })
      (v₂.setThread th { v₂.thread th with tracing := (v₂.thread th).tracing - 1, current := (w.thread th).current }) := by
    intro w₂ v₂ twins
    rw [twins.thread_eq]
    exact twins.setThread th _
  refine .get ?_
  dsimp only
  rw [h.thread_eq, reached, callback]
  generalize w.setThread th _ = w₁, v.setThread th _ = v₁ at marked called ⊢
  split
  · generalize w₁.call c.callback a = r, v₁.call c.callback a = r' at called ⊢
    obtain ⟨w₂, verdict⟩ := r
    obtain ⟨v₂, verdict'⟩ := r'
    obtain ⟨rfl, twins⟩ := called
    exact ⟨.ok ⟨rfl, rfl⟩, unmarked twins⟩
  · exact ⟨.ok ⟨rfl, rfl⟩, unmarked marked⟩

theorem beside_changeState (i) (changed : (f (w.entry i).state).Twin t (g (v.entry i).state)) :
    Beside t Eq w v (changeState i f) (changeState i g) :=
  beside_modify ((h.modifyState changed).reportChanges i)

theorem beside_settle (args : c'.args = c.args) (slot : c'.slot = c.slot) (verdict : c'.verdict = c.verdict)
    (heeded : ((w.entry c.args.code).state.heed (w.entry c.args.code).code c).Twin t
      ((v.entry c.args.code).state.heed (w.entry c.args.code).code c')) : Beside t Eq w v (settle c) (settle c') := by
  have faults : ∀ i event tools, removalFaults (v.entry c.args.code).state i event tools =
      removalFaults (w.entry c.args.code).state i event tools := by
    intro i event tools
    obtain ⟨past, -, same⟩ := (h.entry c.args.code).state
    rw [same]
    rfl
  refine .get ?_
  dsimp only
  rw [args, slot, verdict, (h.entry c.args.code).code]
  refine (beside_changeState h _ heeded).bind fun _ _ w' v' _ h' => ?_
  split
  · exact beside_pure h' rfl
  · exact beside_throw h' _
  · split
    · rw [faults]
      split
      · exact beside_throw h' _
      · exact beside_pure h' rfl
    · refine (beside_modify ?_).bind fun _ _ _ _ _ h => beside_throw h _
      exact { h' with engine := h'.engine.unregister _ _ }

theorem follows_call (th layer slot) (twins : Callable.Twin (a.tool = t) a.event (some c) (some c'))
    (there : ∀ right, a.event = Event.direction right → a.code < w.codes.size) :
    Follows t w v (invoke th layer slot c a >>= settle) (invoke th layer slot c' a >>= settle) := by
  cases twins with
  | same =>
    refine ((beside_invoke h th layer slot rfl (h.reaches_eq c a)).bind fun x y w' v' related h' => ?_).follows
    obtain rfl : y = x := by rw [related.2, ← related.1]
    exact beside_settle h' rfl rfl rfl ((h'.entry _).state.heed _ y)
  | plain k right own is_direction =>
    intro passing
    have invokes : Within Rule.any w (invoke th layer slot (.branch k right) a) := within_invoke ..
    obtain ⟨x, ok⟩ : ∃ x, (exec (invoke th layer slot (.branch k right) a) w).1 = .ok x := ⟨_, rfl⟩
    obtain ⟨w₁, ran⟩ : ∃ w₁, exec (invoke th layer slot (.branch k right) a) w = (.ok x, w₁) := ⟨_, Prod.ext ok rfl⟩
    obtain ⟨-, -, rfl⟩ := exec_invoke ran
    obtain ⟨callable, reached, -⟩ := invoke_ok ran
    obtain ⟨lt₁, -⟩ := (invokes.moves ran).code_eq (there right is_direction)
    have settles : Within Rule.any w₁ (settle x) := within_settle fun _ => trivial
    rw [exec_bind, ran] at passing
    -- the answer is in the history of the code object, so it passed
    have noted := passing x.args.code (World.Moves.code_eq settles lt₁).1
    rw [history_settle lt₁] at noted
    obtain ⟨heard, stays⟩ := noted.1 own k right callable
    have behind : Callable.callback (.direct k) = Callable.callback (.branch k right) := rfl
    have reaches : v.reaches (.direct k) x.args = w.reaches (.branch k right) x.args := heard.symm.trans reached
    have invoked := beside_invoke h th layer slot behind reaches
    unfold Beside at invoked ⊢
    rw [exec_bind, exec_bind, ran]
    rw [ran] at invoked
    generalize exec (invoke th layer slot (.direct k) x.args) v = ran' at invoked ⊢
    obtain ⟨r', v₁⟩ := ran'
    obtain ⟨outcome, twins⟩ := invoked
    cases outcome with
    | ok related =>
      obtain rfl := related.2
      exact beside_settle twins rfl rfl rfl ((twins.entry _).state.heed_plain _ own callable stays)

theorem follows_deliver (th layer slot) (a : EventArgs) (tools)
    (there : ∀ right, a.event = Event.direction right → a.code < w.codes.size) :
    Follows t w v (deliver th layer slot a tools) (deliver th layer slot a tools) := by
  induction tools generalizing w v with
  | nil => exact (beside_pure h rfl).follows
  | cons tool rest ih =>
    have registered : Callable.Twin (tool = t) a.event (w.engine.callable tool a.event) (v.engine.callable tool a.event) :=
      (h.engine.tool tool).callback a.event
    -- delivery goes on after the call
    have calls : ∀ {c c' : Callable}, Callable.Twin (tool = t) a.event (some c) (some c') → Follows t w v
        (invoke th layer slot c { a with tool } >>= fun call => settle call >>= fun _ => deliver th layer slot a rest)
        (invoke th layer slot c' { a with tool } >>= fun call => settle call >>= fun _ => deliver th layer slot a rest) := by
      intro c c' twins
      have first : Follows t w v (invoke th layer slot c { a with tool } >>= settle)
          (invoke th layer slot c' { a with tool } >>= settle) :=
        follows_call (a := { a with tool }) h th layer slot twins there
      rw [← bind_assoc, ← bind_assoc]
      have goesOn : ∀ w', Within Rule.any w' (deliver th layer slot a rest) := fun _ => within_deliver fun _ _ _ => trivial
      refine first.bind (fun _ w' _ => goesOn w') ?_
      intro _ w' v' ran h'
      refine ih h' fun right is_direction => ?_
      have moved : Within Rule.any w (invoke th layer slot c { a with tool } >>= settle) :=
        (within_invoke ..).bind fun _ _ _ => within_settle fun _ => trivial
      exact ((moved.moves ran).code_eq (there right is_direction)).1
    refine .get ?_
    generalize w.engine.callable tool a.event = c, v.engine.callable tool a.event = c' at registered ⊢
    cases registered with
    | same =>
      cases c with
      | none => exact ih h there
      | some c => exact calls (.same _)
    | plain k right own is_direction => exact calls (.plain k right own is_direction)

theorem beside_slotAt (i offset) : Beside t Eq w v (slotAt i offset) (slotAt i offset) := by
  obtain ⟨past, -, same⟩ := (h.entry i).state
  have size : (v.entry i).state.slots.size = (w.entry i).state.slots.size := by
    rw [same]
    rfl
  refine .get ?_
  dsimp only
  rw [size, h.slot_eq]
  split
  · exact beside_pure h rfl
  · exact beside_throw h _

theorem follows_fireFrom (th event i offset reported payload)
    (there : ∀ right, event = Event.direction right → i < w.codes.size) :
    Follows t w v (fireFrom th event i offset reported payload) (fireFrom th event i offset reported payload) := by
  have tools : (v.entry i).state.toolsAt v.engine.globals offset event =
      (w.entry i).state.toolsAt w.engine.globals offset event := by
    unfold CodeState.toolsAt
    rw [h.data_eq, h.engine.globals]
  refine .get ?_
  dsimp only
  rw [h.thread_eq, tools, (h.entry i).code]
  split
  · exact (beside_pure h rfl).follows
  · exact follows_deliver h th .opcode offset _ _ there

theorem follows_fireProtected (th event i offset)
    (there : ∀ right, event = Event.direction right → i < w.codes.size) :
    Follows t w v (fireProtected th event i offset) (fireProtected th event i offset) := by
  refine .get ?_
  dsimp only
  rw [h.thread_eq]
  split
  · exact (beside_throw h _).follows
  · next e _ =>
    have taken := h.setThread th { w.thread th with pending := none }
    refine (beside_modify taken).followed fun _ w' v' ran h' => ?_
    obtain rfl := (Prod.mk.inj ran).2
    refine (follows_fireFrom h' th event i offset offset (.exception e) there).bind ?_ fun _ w₁ v₁ _ h₁ => ?_
    · exact fun _ _ _ => within_modify (.idle rfl rfl)
    · refine (beside_modify ?_).follows
      rw [h₁.thread_eq]
      exact h₁.setThread th _

theorem follows_fireLine (th i offset prev) :
    Follows t w v (fireLine th i offset prev) (fireLine th i offset prev) := by
  have last : ∀ w v, World.Twin t w v →
      Beside t Eq w v (do return (← slotAt i offset).runs) (do return (← slotAt i offset).runs) := by
    intro w v h
    exact (beside_slotAt h i offset).bind fun _ _ _ _ same h => beside_pure h (by rw [same])
  have line : lineToReport (v.entry i) offset prev = lineToReport (w.entry i) offset prev := by
    unfold lineToReport
    rw [h.data_eq, (h.entry i).code]
  refine .get ?_
  dsimp only
  rw [h.thread_eq, line, h.data_eq, h.engine.globals, (h.entry i).code]
  split
  · split
    · refine (follows_deliver h th .line offset _ _ ?_).bind ?_ fun _ w' v' _ h' => (last w' v' h').follows
      · intro right is_direction
        cases right <;> cases is_direction
      · exact fun _ _ _ => (within_slotAt i offset).bind fun _ _ _ => within_pure _
    · exact (last w v h).follows
  · exact (last w v h).follows

theorem follows_fireInstruction (th i offset) :
    Follows t w v (fireInstruction th i offset) (fireInstruction th i offset) := by
  refine (beside_slotAt h i offset).followed fun slot w' v' found h' => .get ?_
  dsimp only
  rw [h'.thread_eq, h'.data_eq, h'.engine.globals, (h'.entry i).code]
  split
  · split
    · refine (follows_deliver h' th .instruction offset _ _ ?_).bind ?_ fun _ _ _ _ h => (beside_pure h rfl).follows
      · intro right is_direction
        cases right <;> cases is_direction
      · exact fun _ _ _ => within_pure _
    · exact (beside_pure h' rfl).follows
  · exact (beside_pure h' rfl).follows

theorem follows_fireOpcode (th i offset prev taken) :
    Follows t w v (fireOpcode th i offset prev taken) (fireOpcode th i offset prev taken) := by
  refine (beside_slotAt h i offset).followed fun slot w' v' found h' => ?_
  obtain ⟨rfl, lt⟩ := exec_slotAt found
  split
  · refine .get ?_
    rw [(h'.entry i).code]
    split
    · refine (follows_fireFrom h' th _ i offset _ _ fun _ _ => lt).bind ?_ fun _ _ _ _ h => (beside_pure h rfl).follows
      exact fun _ _ _ => within_pure _
    · exact (beside_pure h' rfl).follows
  · exact (beside_pure h' rfl).follows

theorem follows_step (th i offset prev taken) :
    Follows t w v (step th i offset prev taken) (step th i offset prev taken) := by
  have afterInstruction : ∀ w v, World.Twin t w v → Follows t w v
      (do
        if (← slotAt i offset).line then
          let _ ← fireLine th i offset prev
        fireOpcode th i offset prev taken)
      (do
        if (← slotAt i offset).line then
          let _ ← fireLine th i offset prev
        fireOpcode th i offset prev taken) := by
    intro w v h
    refine (beside_slotAt h i offset).followed fun slot w' v' _ h' => ?_
    split
    · refine (follows_fireLine h' th i offset prev).bind ?_ fun _ _ _ _ h => follows_fireOpcode h th i offset prev taken
      exact fun _ _ _ => within_fireOpcode th i offset prev taken
    · exact follows_fireOpcode h' th i offset prev taken
  refine (beside_instrument h i).followed fun _ w₁ v₁ _ h₁ => ?_
  refine (beside_slotAt h₁ i offset).followed fun slot w₂ v₂ _ h₂ => ?_
  split
  · refine (follows_fireInstruction h₂ th i offset).bind ?_ fun _ w₃ v₃ _ h₃ => afterInstruction w₃ v₃ h₃
    refine fun _ _ _ => (within_slotAt i offset).bind fun slot _ _ => ?_
    split
    · exact (within_fireLine th i offset prev).bind fun _ _ _ => within_fireOpcode th i offset prev taken
    · exact within_fireOpcode th i offset prev taken
  · exact afterInstruction w₂ v₂ h₂

end

end Act

/-! ## Following runs -/

namespace World
variable {t : Nat} {w v : World}

theorem follow_dispatch (h : Twin t w v) (code) (reply : α → ThreadReply)
    (follows : ∀ {w v : World}, Twin t w v → Act.Follows t w v act act)
    (passing : (w.dispatch code act reply).1.Passing t) :
    Matched t (w.dispatch code act reply) (v.dispatch code act reply) := by
  have began : Twin t { w with dispatching := some code } { v with dispatching := some code } :=
    { h with dispatching := rfl }
  obtain ⟨outcome, twins⟩ := follows began passing
  have same := outcome.eq
  unfold Act.exec at same twins
  unfold dispatch
  generalize StateT.run (ExceptT.run act) { w with dispatching := some code } = r,
    StateT.run (ExceptT.run act) { v with dispatching := some code } = r' at same twins ⊢
  obtain ⟨outcome, w'⟩ := r
  obtain ⟨outcome', v'⟩ := r'
  obtain rfl : outcome' = outcome := same
  exact ⟨rfl, { twins with dispatching := rfl }⟩

theorem follow_runPath (h : Twin t w v) (th code path prev) (passing : (w.runPath th code prev path).1.Passing t) :
    Matched t (w.runPath th code prev path) (v.runPath th code prev path) := by
  induction path generalizing w v prev with
  | nil => exact ⟨rfl, h⟩
  | cons place rest ih =>
    obtain ⟨offset, taken⟩ := place
    have steps : ∀ {w v : World}, Twin t w v → Act.Follows t w v (Act.step th code offset prev taken)
        (Act.step th code offset prev taken) := fun h => Act.follows_step h th code offset prev taken
    have goesOn : ∀ w' : World, Moves Rule.any w' (w'.runPath th code (some offset) rest).1 := fun w' =>
      moves_runPath th code rest w' (some offset)
    unfold World.runPath at passing ⊢
    dsimp only at passing ⊢
    cases fault : (w.dispatch code (Act.step th code offset prev taken) .opcode).2.fault? with
    | some why =>
      rw [fault] at passing
      obtain ⟨same, twins⟩ := follow_dispatch h code .opcode steps passing
      rw [same, fault]
      exact ⟨rfl, twins⟩
    | none =>
      rw [fault] at passing
      obtain ⟨same, twins⟩ := follow_dispatch h code .opcode steps (World.Passing.before passing (goesOn _))
      obtain ⟨others, twins'⟩ := ih twins (some offset) passing
      rw [same, fault]
      exact ⟨congrArg (Except.map _) others, twins'⟩

theorem follow_threadOp (h : Twin t w v) (th) (ok : op.firesOnly (fun e => !e.isLocal) = true)
    (passing : (w.threadOp th op).1.Passing t) : Matched t (w.threadOp th op) (v.threadOp th op) := by
  have apart : ∀ {event : Event} {P : Prop}, (!event.isLocal) = true → ∀ right, event = Event.direction right → P :=
    fun loose right is_direction => absurd is_direction (Event.ne_direction (by simpa using loose) right)
  cases op with
  | step code offset prev taken =>
    exact follow_dispatch h code _ (fun h => Act.follows_step h th code offset prev taken) passing
  | run code path =>
    unfold World.threadOp at passing ⊢
    dsimp only at passing ⊢
    rw [(h.entry code).code]
    generalize path.getD _ = path at passing ⊢
    have ran : (w.runPath th code none path).1.Passing t := by
      split at passing
      all_goals
        next ended =>
          rw [ended]
          exact passing
    obtain ⟨same, twins⟩ := follow_runPath h th code path none ran
    generalize w.runPath th code none path = r, v.runPath th code none path = r' at same twins ⊢
    obtain ⟨w', outcome⟩ := r
    obtain ⟨v', outcome'⟩ := r'
    obtain rfl : outcome' = outcome := same
    cases outcome' <;> exact ⟨rfl, twins⟩
  | fire code event offset payload =>
    exact follow_dispatch h code _ (fun h => Act.follows_fireFrom h th event code offset offset payload (apart ok)) passing
  | fireJump code event offset source dest =>
    refine follow_dispatch h code _ (fun h => ?_) passing
    refine (Act.follows_fireFrom h th event code offset source _ (apart ok)).bind ?_ fun _ _ _ _ h =>
      (Act.beside_pure h rfl).follows
    exact fun _ _ _ => Act.within_pure _
  | fireProtected code event offset =>
    unfold World.threadOp at passing ⊢
    dsimp only at passing ⊢
    have ran : (w.dispatch code (Act.fireProtected th event code offset) fun _ => .done).1.Passing t := by
      split at passing
      all_goals
        next ended =>
          rw [ended]
          exact passing
    obtain ⟨same, twins⟩ := follow_dispatch h code (fun _ => .done)
      (fun h => Act.follows_fireProtected h th event code offset (apart ok)) ran
    generalize (w.dispatch code (Act.fireProtected th event code offset) fun _ => .done) = r,
      (v.dispatch code (Act.fireProtected th event code offset) fun _ => .done) = r' at same twins ⊢
    obtain ⟨w', reply⟩ := r
    obtain ⟨v', reply'⟩ := r'
    obtain rfl : reply' = reply := same
    have pending : (v'.thread th).pending = (w'.thread th).pending := by rw [twins.thread_eq]
    cases reply' with
    | failed why =>
      cases why with
      | refused e => exact ⟨congrArg (ThreadReply.guarded (some e)) pending, twins⟩
      | _ => exact ⟨rfl, twins⟩
    | _ => exact ⟨congrArg (ThreadReply.guarded none) pending, twins⟩
  | fireLine code offset prev => exact follow_dispatch h code _ (fun h => Act.follows_fireLine h th code offset prev) passing
  | fireInstruction code offset =>
    exact follow_dispatch h code _ (fun h => Act.follows_fireInstruction h th code offset) passing
  | setPending e =>
    have pending := h.setThread th { w.thread th with pending := some e }
    unfold World.threadOp
    rw [h.thread_eq]
    exact ⟨rfl, pending⟩
  | takePending =>
    have taken := h.setThread th { w.thread th with pending := none }
    unfold World.threadOp
    rw [h.thread_eq]
    exact ⟨rfl, taken⟩
  | inspect => exact ⟨congrArg ThreadReply.thread (h.thread_eq th), h⟩

mutual

theorem follow_perform : (op : Operation) → op.firesOnly (fun e => !e.isLocal) = true → ∀ {w v : World}, Twin t w v →
    (w.perform op).1.Passing t → Matched t (w.perform op) (v.perform op)
  | .control c, _, _, _, h, _ => by
    obtain ⟨same, twins⟩ := h.control c
    exact ⟨congrArg Answer.control same, twins⟩
  | .thread th _, ok, _, _, h, passing => by
    obtain ⟨same, twins⟩ := follow_threadOp h th ok passing
    exact ⟨congrArg Answer.thread same, twins⟩
  | .tracing th ops, ok, w, v, h, passing => by
    have marked := h.setThread th { w.thread th with tracing := (w.thread th).tracing + 1 }
    obtain ⟨same, twins⟩ := follow_performAll ops ok marked passing
    unfold World.perform
    rw [h.thread_eq]
    dsimp only at same twins ⊢
    generalize (w.setThread th _).performAll ops = r, (v.setThread th _).performAll ops = r' at same twins ⊢
    obtain ⟨w', answers⟩ := r
    obtain ⟨v', answers'⟩ := r'
    obtain rfl : answers' = answers := same
    refine ⟨rfl, ?_⟩
    dsimp only
    rw [twins.thread_eq]
    exact twins.setThread th _

theorem follow_performAll : (ops : List Operation) → Operation.allFireOnly (fun e => !e.isLocal) ops = true →
    ∀ {w v : World}, Twin t w v → (w.performAll ops).1.Passing t → Matched t (w.performAll ops) (v.performAll ops)
  | [], _, _, _, h, _ => ⟨rfl, h⟩
  | op :: rest, ok, w, v, h, passing => by
    obtain ⟨first, others⟩ := Bool.and_eq_true_iff.1 ok
    have goesOn : Moves Rule.any (w.perform op).1 ((w.perform op).1.performAll rest).1 :=
      moves_performAll _ rest (Operation.allFireOnly_any rest)
    obtain ⟨same, twins⟩ := follow_perform op first h (World.Passing.before passing goesOn)
    obtain ⟨same', twins'⟩ := follow_performAll rest others twins passing
    have answers : ∀ w : World, (w.performAll (op :: rest)).2 =
      (w.perform op).2 :: ((w.perform op).1.performAll rest).2 := fun _ => rfl
    exact ⟨by rw [answers, answers, same, same'], twins'⟩

end

end World

/-! ## Attention -/

/-- The tool never asks to be left out. -/
def Call.Stays (t : Nat) (c : Call) : Prop := c.args.tool = t → c.reached = true → c.disables = false

/-- When the tool's callback for `BRANCH` is to be called, somebody watches what the instruction reports that decided: the
tool itself, or another one that has not disabled it there. -/
def Call.Watched (code : Code) (t : Nat) (c : Call) (earlier : List Happening) : Prop :=
  c.args.tool = t → c.callable.isBranch = true →
    (code.eventAt .opcode c.args.offset).any (fun e => (activeAfter e earlier).tools.any fun u =>
      u == t || !(disabledAt code .opcode c.args.offset e earlier).has u) = true

/-- So far the tool has stayed, and what decided its branches was watched. -/
structure World.Attentive (t : Nat) (w : World) : Prop where
  stays : ∀ i, i < w.codes.size → EachAnswer (fun c _ => c.Stays t) (w.entry i).state.history
  watched : ∀ i, i < w.codes.size → EachAnswer (Call.Watched (w.entry i).code t) (w.entry i).state.history

theorem disabledAt_of_stays (stays : EachAnswer (fun c _ => c.args.tool = t → c.disables = false) history) :
    (disabledAt code l i e history).has t = false := by
  induction history with
  | nil => simp [disabledAt]
  | cons x earlier ih =>
    cases x with
    | aligned a => rw [disabledAt, ToolMask.has_without, ih stays, Bool.false_and]
    | answered c =>
      by_cases own : c.args.tool = t
      · have no_hit : c.hits code l i e = false := by
          simp [Call.hits, stays.1 own, Call.sibling_of_stays (stays.1 own) code]
        rw [disabledAt, no_hit]
        exact ih stays.2
      · rw [disabledAt_answered_of_ne own]
        exact ih stays.2

/-- The calls of a tool that stays are all reached, if what decided its branches is watched. -/
theorem reached_of_watched (told : EachAnswer (Told code) history) (stays : EachAnswer (fun c _ => c.Stays t) history)
    (watched : EachAnswer (Call.Watched code t) history) :
    EachAnswer (fun c _ => c.args.tool = t → c.reached = true ∧ c.disables = false) history := by
  induction history with
  | nil => trivial
  | cons x earlier ih =>
    cases x with
    | aligned a => exact ih told stays watched
    | answered c =>
      have before := ih told.2 stays.2 watched.2
      refine ⟨fun own => ?_, before⟩
      have heard : c.reached = true := by
        refine Bool.of_not_eq_false fun missed => ?_
        obtain ⟨e, event, somebody⟩ := (Option.any_eq_true _ _).1 (watched.1 own (told.1.checked missed))
        obtain ⟨u, active, in_there⟩ := List.any_eq_true.1 somebody
        rw [ToolMask.mem_tools] at active
        -- nobody is called for what decided, so this tool has disabled it
        have out : (disabledAt code .opcode c.args.offset e earlier).has u = true := by
          have silent := congrArg (ToolMask.has · u) (told.1.missed missed e event)
          simpa [active] using silent
        rw [out, Bool.not_true, Bool.or_false, beq_iff_eq] at in_there
        have never : (disabledAt code .opcode c.args.offset e earlier).has t = false :=
          disabledAt_of_stays (before.imp fun _ _ fine own => (fine own).2)
        rw [in_there, never] at out
        cases out
      exact ⟨heard, stays.1 own heard⟩

/-- What a tool's callbacks received for a code object, the latest first. -/
def receivedBy (t : Nat) (history : List Happening) : List EventArgs :=
  history.filterMap fun
    | .answered c => if c.args.tool = t ∧ c.reached = true then some c.args else none
    | .aligned _ => none

theorem Accounts.receivedBy_eq (accounts : Accounts t h h') : receivedBy t h' = receivedBy t h := by
  unfold receivedBy at *
  induction accounts with
  | nil => rfl
  | cons twins _ ih =>
    cases twins with
    | same x => rw [List.filterMap_cons, List.filterMap_cons, ih]
    | plain tool callable => rw [List.filterMap_cons, List.filterMap_cons, ih]

theorem Engine.twin_registered (e : Engine) (t k) : Twin t
    (e.modifyTool t fun tool => (tool.setCallback .branchRight (some (.branch k true))).setCallback .branchLeft
      (some (.branch k false)))
    ((e.modifyTool t (·.setCallback .branchLeft (some (.direct k)))).modifyTool t
      (·.setCallback .branchRight (some (.direct k)))) := by
  have tools : ∀ tool : Tool, Tool.Twin True
      ((tool.setCallback .branchRight (some (.branch k true))).setCallback .branchLeft (some (.branch k false)))
      ((tool.setCallback .branchLeft (some (.direct k))).setCallback .branchRight (some (.direct k))) := by
    refine fun tool => ⟨rfl, rfl, fun ev => ?_⟩
    simp only [Tool.callback_setCallback]
    by_cases left : ev = .branchLeft
    · subst left
      exact .plain k false trivial rfl
    · rw [if_neg left, if_neg left]
      split
      next right => exact .plain k true trivial right
      next => exact .same _
  refine ⟨rfl, rfl, rfl, fun u => ?_⟩
  simp only [tool_modifyTool]
  by_cases here : u = t ∧ t < 8
  · obtain ⟨rfl, lt⟩ := here
    simp only [lt, and_self, if_true]
    exact tools _
  · rw [if_neg here, if_neg here, if_neg here]
    exact .refl _

namespace World

/-- The callback is registered for `BRANCH`. -/
def joint (w : World) (t k : Nat) : World := (w.control (.register t (EventSet.single .branch) (some k))).1

/-- The callback is registered for each direction by itself. -/
def separate (w : World) (t k : Nat) : World :=
  ((w.control (.register t (EventSet.single .branchLeft) (some k))).1.control
    (.register t (EventSet.single .branchRight) (some k))).1

theorem control_register (w : World) (t events callback) :
    (w.control (.register t events callback)).1 =
      { w with engine := ((w.engine.register t events callback).toOption.map Prod.fst).getD w.engine } := by
  have answered : w.control (.register t events callback) = w.answer (Act.register t events callback) .previous := rfl
  rw [answered, answer_eq]
  simp only [Act.register, Act.exec_bind, Act.exec_get, Act.exec_accept]
  cases w.engine.register t events callback <;> rfl

theorem twin_registered (w : World) (t k) : Twin t (w.joint t k) (w.separate t k) := by
  unfold joint separate
  rw [control_register, control_register, control_register]
  cases checked : Engine.checkTool t with
  | error why =>
    have refused : ∀ (e : Engine) (events : EventSet), e.register t events (some k) = .error why := by
      intro e events
      rw [Engine.register, checked]
      rfl
    simp only [refused]
    exact .refl w
  | ok =>
    have both : (w.engine.register t (EventSet.single .branch) (some k)).toOption.map Prod.fst =
        some (w.engine.modifyTool t fun tool => (tool.setCallback .branchRight (some (.branch k true))).setCallback
          .branchLeft (some (.branch k false))) := by
      rw [Engine.register, checked]
      rfl
    have left : (w.engine.register t (EventSet.single .branchLeft) (some k)).toOption.map Prod.fst =
        some (w.engine.modifyTool t (·.setCallback .branchLeft (some (.direct k)))) := by
      rw [Engine.register, checked]
      rfl
    have right : ∀ e : Engine, (e.register t (EventSet.single .branchRight) (some k)).toOption.map Prod.fst =
        some (e.modifyTool t (·.setCallback .branchRight (some (.direct k)))) := by
      intro e
      rw [Engine.register, checked]
      rfl
    simp only [both, left, right, Option.getD_some]
    exact { Twin.refl w with engine := w.engine.twin_registered t k }

end World

/-- Delivering branches. A callback is registered for `BRANCH` or for each direction by itself; then the same operations
follow. If with `BRANCH` the tool never disables, and it or another tool watches what the deciding instructions report, then
both ways the operations are answered alike, and every callback receives the same events, with the same source and
destination and in the same order. -/
theorem branch_delivery {w : World} (reached : w.Reached fun e => !e.isLocal) (t k : Nat) {rest : List Operation}
    (loose : Operation.allFireOnly (fun e => !e.isLocal) rest = true) {w' v' : World} {answers answers' : List Answer}
    (joint : (w.joint t k).performAll rest = (w', answers))
    (separate : (w.separate t k).performAll rest = (v', answers'))
    (attentive : w'.Attentive t) :
    answers' = answers ∧ v'.deliveries = w'.deliveries ∧ v'.callbacks = w'.callbacks ∧
      ∀ i, receivedBy t (v'.entry i).state.history = receivedBy t (w'.entry i).state.history := by
  have registers : Operation.allFireOnly (fun e => !e.isLocal)
    [.control (.register t (EventSet.single .branch) (some k))] = true := rfl
  have last := (reached.performAll registers).performAll loose
  have passing : ((w.joint t k).performAll rest).1.Passing t := by
    have last : ((w.joint t k).performAll rest).1.Reached fun e => !e.isLocal := last
    rw [joint] at last ⊢
    intro i lt
    have reached := reached_of_watched (last.told lt) (attentive.stays i lt) (attentive.watched i lt)
    exact reached.imp fun c _ heard own _ _ _ => heard own
  obtain ⟨same, twins⟩ := World.follow_performAll rest loose (w.twin_registered t k) passing
  rw [joint, separate] at same twins
  refine ⟨same, twins.deliveries, twins.callbacks, fun i => ?_⟩
  obtain ⟨past, accounts, told⟩ := (twins.entry i).state
  rw [told]
  exact accounts.receivedBy_eq

instance decidableStays (t : Nat) (c : Call) : Decidable (c.Stays t) :=
  inferInstanceAs (Decidable (c.args.tool = t → c.reached = true → c.disables = false))

instance decidableWatched (code : Code) (t : Nat) (c : Call) (earlier : List Happening) :
    Decidable (c.Watched code t earlier) :=
  inferInstanceAs (Decidable (c.args.tool = t → c.callable.isBranch = true →
    (code.eventAt .opcode c.args.offset).any (fun e => (activeAfter e earlier).tools.any fun u =>
      u == t || !(disabledAt code .opcode c.args.offset e earlier).has u) = true))

instance decidableAttentive (t : Nat) (w : World) : Decidable (w.Attentive t) :=
  decidable_of_iff
    ((∀ i, i < w.codes.size → EachAnswer (fun c _ => c.Stays t) (w.entry i).state.history) ∧
      ∀ i, i < w.codes.size → EachAnswer (Call.Watched (w.entry i).code t) (w.entry i).state.history)
    ⟨fun h => ⟨h.1, h.2⟩, fun h => ⟨h.stays, h.watched⟩⟩

/-- Two tools watch a conditional jump and an asynchronous loop. The second one has a callback for `BRANCH` that disables
what it hears of, and watches `STOP_ITERATION` too. -/
def branchWatched : World :=
  World.after
    [{ steps := [.emit .resume (.literal 0), .jump .popJumpIfFalse "out", .emit .notTaken (.literal 0), .patch "out",
        .mark "send", .emit .endSend (.literal 0), .emit .notTaken (.literal 0), .endAsyncFor (.mark "send"),
        .emit .returnValue (.literal 0)] }]
    [.scripted [] [] 0, .scripted [.disable] [] 0] .error
    [.control (.useTool 0 "first"), .control (.useTool 1 "second"),
      .control (.setEvents 0 (EventSet.single .branch)), .control (.register 1 (EventSet.single .branch) (some 1)),
      .control (.setEvents 1 (EventSet.single .branch ||| EventSet.single .stopIteration))]

/-- The jump is taken, and then it is not; the loop goes on, and ends. -/
def branchSteps : List Operation :=
  [.thread 0 (.step 0 1 none true), .thread 0 (.step 0 3 (some 1) false), .thread 0 (.step 0 4 none false),
    .thread 0 (.step 0 5 (some 4) false), .thread 0 (.step 0 6 none false)]

/-- All four directions are delivered, from the jump and from the loop. -/
theorem branch_delivery_watched :
    (receivedBy 0 (((branchWatched.separate 0 0).performAll branchSteps).1.entry 0).state.history).map
        (fun a => (a.event, a.offset, a.payload.destination?)) =
      [(.branchRight, 4, some 7), (.branchLeft, 4, some 6), (.branchLeft, 1, some 4), (.branchRight, 1, some 4)] := by
  have reached : branchWatched.Reached fun e => !e.isLocal := ⟨_, _, _, _, by decide, rfl⟩
  have loose : Operation.allFireOnly (fun e => !e.isLocal) branchSteps = true := by decide
  have attentive : ((branchWatched.joint 0 0).performAll branchSteps).1.Attentive 0 := by decide +kernel
  have joint := (Prod.eta ((branchWatched.joint 0 0).performAll branchSteps)).symm
  have separate := (Prod.eta ((branchWatched.separate 0 0).performAll branchSteps)).symm
  obtain ⟨-, -, -, received⟩ := branch_delivery reached 0 0 loose joint separate attentive
  rw [received]
  decide +kernel

end MonitoredVm
