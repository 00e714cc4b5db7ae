import Mathlib.Data.Stream.Init
import LetLang.Proofs.Accounting
import LetLang.Proofs.Naming

/-!
# One stream of tokens, however it is pulled

A cursor that is never sought gives one stream: the tokens of its source, and behind them the end of
the input for ever (`Token.stream`). What a command pulls from a cursor is a function of the
workspace (`Workspace.pulled`) that follows the calls of `Cursor.next` which the command makes. One
such call takes one token off the stream (`Cursor.Pulls.of_ahead`), so of each operation it remains
to show that it makes these calls and no others.

Main statement: `pulled_is_prefix_of_stream`. In any run of commands, those on one cursor pull the
stream from its start on, one after another, and the cursor stands behind the last token pulled.
-/

namespace LetLang

/-! ## The stream -/

/-- The tokens, and the end of the input behind them for ever. -/
def Token.stream (bytes : Bytes) (ts : List Token) : Stream' Token :=
  Stream'.appendStream' ts (Stream'.const (Token.endOf bytes))

theorem Token.stream_eq_cons (bytes : Bytes) (ts : List Token) :
    stream bytes ts = Stream'.cons (ts.headD (endOf bytes)) (stream bytes ts.tail) := by
  cases ts with
  | nil => exact Stream'.const_eq (endOf bytes)
  | cons t ts => rfl

/-- Behind some of its elements, the stream is that of the tokens that are left. -/
theorem Token.drop_stream (bytes : Bytes) (n : Nat) (ts : List Token) :
    (stream bytes ts).drop n = stream bytes (ts.drop n) := by
  induction n generalizing ts with
  | zero => rfl
  | succ n ih =>
      rw [stream_eq_cons, Stream'.drop_succ, Stream'.tail_cons, ih, List.drop_tail]

namespace Cursor

variable {bytes : Bytes} {k : Nat} {ts : List Token}

theorem Pulls.append {c c₁ c₂ : Cursor} {pulled more : List Token} (h : c.Pulls pulled c₁)
    (hmore : c₁.Pulls more c₂) : c.Pulls (pulled ++ more) c₂ := by
  induction pulled generalizing c with
  | nil =>
      obtain rfl : c = c₁ := h
      exact hmore
  | cons t pulled ih =>
      obtain ⟨c', hnext, hrest⟩ := h
      exact ⟨c', hnext, ih hrest⟩

theorem Pulls.single {c c' : Cursor} {t : Token} (h : c.next = .ok (t, c')) : c.Pulls [t] c' :=
  ⟨c', h, rfl⟩

/-- What is pulled is what comes next in the stream, and the cursor ends behind it. -/
theorem Pulls.of_ahead {c : Cursor} {pulled : List Token}
    (h : (Cursor.mk bytes k).Pulls pulled c) (hts : Ahead bytes k ts) :
    pulled = (Token.stream bytes ts).take pulled.length ∧
      c = Cursor.mk bytes (Token.lastStop k pulled) ∧ k ≤ Token.lastStop k pulled ∧
      Ahead bytes (Token.lastStop k pulled) (ts.drop pulled.length) := by
  induction pulled generalizing k ts with
  | nil => exact ⟨rfl, h.symm, Nat.le_refl k, hts⟩
  | cons t pulled ih =>
      obtain ⟨c', hnext, hrest⟩ := h
      obtain ⟨hhead, htail⟩ := next_of_ahead hts
      obtain ⟨rfl, rfl⟩ := Prod.mk.inj (Except.ok.inj (hnext.symm.trans hhead))
      obtain ⟨hstream, hc, hle, hahead⟩ := ih hrest htail
      have hstop : k ≤ (ts.headD (Token.endOf bytes)).span.stop := by
        cases ts with
        | nil => exact hts.le_length
        | cons u us =>
            have hstart := hts.le_start List.mem_cons_self
            exact Nat.le_trans hstart u.span.start_le_stop
      refine ⟨?_, hc, Nat.le_trans hstop hle, ?_⟩
      · rw [Token.stream_eq_cons, List.length_cons, Stream'.take_succ_cons, ← hstream]
      · rw [List.length_cons, ← List.drop_tail]
        exact hahead

end Cursor

/-! ## What an operation pulls -/

namespace Cursor

/-- One token after another, but no more than so many, and none behind the end of the input. -/
def drawn : Nat → Cursor → List Token
  | 0, _ => []
  | n + 1, c =>
      match c.next with
      | .error _ => []
      | .ok (t, c₁) => t :: if t.kind = .endOfInput then [] else drawn n c₁

/-- The tokens that reading a production pulls. -/
def pulledBy (production : Production) (c : Cursor) : List Token :=
  match c.read production with
  | .error _ => []
  | .ok (reading, _) => reading.pulled

end Cursor

/-- The tokens that an action pulls. `tokenize` pulls those of `rest` and gives the last one too. -/
def CursorAction.pulled (c : Cursor) : CursorAction → List Token
  | next => c.drawn 1
  | peek => []
  | take n => c.drawn n
  | rest => c.drawn (c.source.length + 1)
  | tokenize => c.drawn (c.source.length + 1)
  | seek _ => []

namespace Session

/-- A session that refuses to read pulls nothing. -/
def bindingPulled (s : Session) : List Token :=
  if s.sink.isReleased then [] else s.cursor.pulledBy Production.binding

/-- The tokens that so many bindings pull, up to the first that is refused. -/
def bindingsPulled : Nat → Session → List Token
  | 0, _ => []
  | n + 1, s =>
      s.bindingPulled ++
        match s.readBinding with
        | (.error _, _) => []
        | (.ok _, s₁) => bindingsPulled n s₁

end Session

def SessionAction.pulled (s : Session) : SessionAction → List Token
  | readBinding => s.bindingPulled
  | readBindingTail => s.cursor.pulledBy Production.bindingTail
  | expect _ _ _ _ => []
  | writeErrors => []
  | release => []
  | block n _ => s.bindingsPulled n

namespace Workspace

/-- The tokens that a command pulls from the cursor of the name. -/
def pulled (w : Workspace) (name : String) (command : Command) : List Token :=
  if command.target = name then
    match command with
    | .onCursor target action =>
        match w.cursor? target with
        | none => []
        | some c => action.pulled c
    | .onSession target action =>
        match w.session? target with
        | none => []
        | some (s, _) => action.pulled s
    | _ => []
  else []

/-- The tokens that commands pull from the cursor of the name, one command after another. -/
def pulledIn (w : Workspace) (name : String) : List Command → List Token
  | [] => []
  | command :: more => w.pulled name command ++ (w.perform command).2.pulledIn name more

end Workspace

/-! ## Actions on a cursor -/

namespace Cursor

variable {bytes : Bytes} {k : Nat} {ts : List Token}

/-- The end of the input is pulled only if there are fewer tokens than asked for. -/
theorem drawn_of_ahead (n : Nat) (h : Ahead bytes k ts) :
    (Cursor.mk bytes k).drawn n =
      ts.take n ++ if ts.length < n then [Token.endOf bytes] else [] := by
  induction n generalizing k ts with
  | zero => simp [drawn]
  | succ n ih =>
      have hnext := (next_of_ahead h).1
      cases ts with
      | nil =>
          rw [drawn, hnext]
          rfl
      | cons t ts =>
          simp only [List.headD_cons] at hnext
          rw [drawn, hnext]
          simp only [if_neg h.2.1, ih h.2.2, List.take_succ_cons, List.length_cons,
            Nat.add_lt_add_iff_right, List.cons_append]

theorem drawn_all_of_ahead (h : Ahead bytes k ts) :
    (Cursor.mk bytes k).drawn (bytes.length + 1) = ts ++ [Token.endOf bytes] := by
  have hlength := h.length_le
  rw [drawn_of_ahead _ h, List.take_of_length_le (by omega), if_pos (by omega)]

theorem pulls_take {n : Nat} {c c' : Cursor} {us : List Token} (h : c.take n = .ok (us, c')) :
    c.Pulls (c.drawn n) c' := by
  induction n generalizing c us with
  | zero =>
      cases h
      rfl
  | succ n ih =>
      cases hnext : c.next with
      | error e =>
          rw [take, hnext] at h
          contradiction
      | ok result =>
          obtain ⟨t, c₁⟩ := result
          rw [take, hnext] at h
          rw [drawn, hnext]
          by_cases ht : t.kind = .endOfInput
          · simp only [if_pos ht] at h ⊢
            cases h
            exact Pulls.single hnext
          · simp only [if_neg ht] at h ⊢
            cases hrest : c₁.take n with
            | error e => simp [hrest] at h
            | ok rest =>
                obtain ⟨vs, c₂⟩ := rest
                simp only [hrest] at h
                cases h
                exact ⟨c₁, hnext, ih hrest⟩

theorem take_min_of_ahead (n : Nat) (h : Ahead bytes k ts) :
    ∃ c, (Cursor.mk bytes k).take n = .ok (ts.take n, c) := by
  induction n generalizing k ts with
  | zero => exact ⟨_, rfl⟩
  | succ n ih =>
      have hnext := (next_of_ahead h).1
      cases ts with
      | nil =>
          refine ⟨Cursor.mk bytes bytes.length, ?_⟩
          rw [take, hnext]
          rfl
      | cons t ts =>
          obtain ⟨c, htake⟩ := ih h.2.2
          simp only [List.headD_cons] at hnext
          refine ⟨c, ?_⟩
          rw [take, hnext]
          simp only [if_neg h.2.1, htake, List.take_succ_cons]

end Cursor

namespace CursorAction

def isSeek : CursorAction → Bool
  | seek _ => true
  | _ => false

/-- What an action replies with the tokens left ahead of the cursor. -/
def reply (stop : Token) (left : List Token) : CursorAction → Reply
  | next => .token (left.headD stop)
  | peek => .token (left.headD stop)
  | take n => .tokens (left.take n)
  | rest => .tokens left
  | tokenize => .tokens (left ++ [stop])
  | seek _ => .done

/-- What an action pulls off the tokens left ahead of the cursor. -/
def pulledFrom (stop : Token) (left : List Token) : CursorAction → List Token
  | next => [left.headD stop]
  | peek => []
  | take n => left.take n ++ if left.length < n then [stop] else []
  | rest => left ++ [stop]
  | tokenize => left ++ [stop]
  | seek _ => []

variable {bytes : Bytes} {k : Nat} {ts : List Token}

theorem pulled_of_ahead (action : CursorAction) (h : Ahead bytes k ts) :
    action.pulled (Cursor.mk bytes k) = action.pulledFrom (Token.endOf bytes) ts := by
  cases action with
  | next =>
      rw [pulled, Cursor.drawn_of_ahead 1 h]
      cases ts <;> rfl
  | peek => rfl
  | take n => exact Cursor.drawn_of_ahead n h
  | rest => exact Cursor.drawn_all_of_ahead h
  | tokenize => exact Cursor.drawn_all_of_ahead h
  | seek offset => rfl

theorem run_of_ahead {action : CursorAction} (hseek : action.isSeek = false)
    (h : Ahead bytes k ts) :
    ∃ c, action.run (Cursor.mk bytes k) = .ok (action.reply (Token.endOf bytes) ts, c) ∧
      (Cursor.mk bytes k).Pulls (action.pulled (Cursor.mk bytes k)) c := by
  have hlength : ts.length < bytes.length + 1 := by
    have hle := h.length_le
    omega
  have hrest : (Cursor.mk bytes k).rest = .ok (ts, Cursor.mk bytes bytes.length) :=
    Cursor.take_of_ahead h hlength
  cases action with
  | next =>
      have hnext := (Cursor.next_of_ahead h).1
      rw [pulled_of_ahead .next h]
      refine ⟨_, ?_, Cursor.Pulls.single hnext⟩
      rw [run, hnext]
      rfl
  | peek =>
      refine ⟨_, ?_, rfl⟩
      rw [run, Cursor.peek_of_ahead h]
      rfl
  | take n =>
      obtain ⟨c, htake⟩ := Cursor.take_min_of_ahead n h
      refine ⟨c, ?_, Cursor.pulls_take htake⟩
      rw [run, htake]
      rfl
  | rest =>
      refine ⟨_, ?_, Cursor.pulls_take hrest⟩
      rw [run, hrest]
      rfl
  | tokenize =>
      -- Both loops end at the end of the input, and asking for it again moves nothing.
      refine ⟨_, ?_, Cursor.pulls_take hrest⟩
      rw [run, Cursor.tokenize_of_ahead h]
      rfl
  | seek offset => contradiction

end CursorAction

/-! ## Actions on a session -/

namespace Session

theorem pulls_read (s : Session) (production : Production) :
    s.cursor.Pulls (s.cursor.pulledBy production) (s.read production).2.cursor := by
  unfold read Cursor.pulledBy
  cases hread : s.cursor.read production with
  | error e => rfl
  | ok result =>
      obtain ⟨reading, c⟩ := result
      have hpulls := Cursor.pulls_of_read hread
      cases reading with
      | complete ts => exact hpulls
      | mismatch accepted expected found =>
          have hcursor := cursor_report { s with cursor := c } expected found
          dsimp only
          cases hreport : report { s with cursor := c } expected found with
          | mk outcome s₁ =>
              rw [hreport] at hcursor
              cases outcome <;> exact hcursor ▸ hpulls

theorem pulls_readBinding (s : Session) :
    s.cursor.Pulls s.bindingPulled s.readBinding.2.cursor := by
  unfold readBinding bindingPulled
  split
  · rfl
  · exact s.pulls_read Production.binding

theorem pulls_readBindings (n : Nat) (s : Session) :
    s.cursor.Pulls (s.bindingsPulled n) (s.readBindings n).2.cursor := by
  induction n generalizing s with
  | zero => rfl
  | succ n ih =>
      have hfirst := s.pulls_readBinding
      unfold readBindings bindingsPulled
      cases hread : s.readBinding with
      | mk outcome s₁ =>
          rw [hread] at hfirst
          cases outcome with
          | error e => exact hfirst.append rfl
          | ok outcome =>
              have hmore := ih s₁
              dsimp only
              cases hrest : s₁.readBindings n with
              | mk outcomes s₂ =>
                  rw [hrest] at hmore
                  cases outcomes with
                  | error e => exact hfirst.append hmore
                  | ok outcomes => exact hfirst.append hmore

theorem cursor_block (s : Session) (n : Nat) (fails : Bool) :
    (s.block n fails).2.cursor = (s.readBindings n).2.cursor := by
  unfold block
  cases s.readBindings n with
  | mk outcomes s₁ => cases outcomes <;> rfl

theorem cursor_expect (s : Session) (found : Token) (accepted : List TokenKind) :
    (s.expect found accepted).2.cursor = s.cursor := by
  have hcursor := s.cursor_report accepted found
  unfold expect
  split
  · rfl
  · cases hreport : s.report accepted found with
    | mk outcome s₁ =>
        rw [hreport] at hcursor
        cases outcome <;> exact hcursor

end Session

theorem SessionAction.pulls_run (action : SessionAction) (s : Session) :
    s.cursor.Pulls (action.pulled s) (action.run s).2.cursor := by
  cases action with
  | readBinding => exact s.pulls_readBinding
  | readBindingTail => exact s.pulls_read Production.bindingTail
  | expect found start stop accepted =>
      simp only [run]
      split
      · rfl
      · exact (s.cursor_expect _ accepted).symm
  | writeErrors => rfl
  | release => rfl
  | block n fails =>
      have hcursor := s.cursor_block n fails
      have hpulls := s.pulls_readBindings n
      rw [← hcursor] at hpulls
      exact hpulls

/-! ## Commands -/

/-- Whether a command makes the object of the name anew, or seeks its cursor. -/
def Command.resets (name : String) : Command → Bool
  | newSink target => target == name
  | newCursor target _ => target == name
  | newSession target _ _ => target == name
  | onCursor target action => target == name && action.isSeek
  | onSink _ _ => false
  | onSession _ _ => false

namespace Workspace

variable {w : Workspace} {name : String} {bytes : Bytes} {k : Nat} {ts : List Token}

theorem pulled_of_ne {command : Command} (h : name ≠ command.target) :
    w.pulled name command = [] :=
  if_neg (Ne.symm h)

theorem pulled_onCursor {c : Cursor} (h : w.cursor? name = some c) (action : CursorAction) :
    w.pulled name (.onCursor name action) = action.pulled c := by
  simp only [pulled, Command.target, if_true, h]

theorem pulled_onSession {s : Session} {index : Nat} (h : w.session? name = some (s, index))
    (action : SessionAction) : w.pulled name (.onSession name action) = action.pulled s := by
  simp only [pulled, Command.target, if_true, h]

theorem pulled_onSession_of_none (h : w.session? name = none) (action : SessionAction) :
    w.pulled name (.onSession name action) = [] := by
  simp only [pulled, Command.target, if_true, h]

theorem pulled_onSink (w : Workspace) (name target : String) (action : SinkAction) :
    w.pulled name (.onSink target action) = [] := by
  unfold pulled
  split <;> rfl

/-- A command that does not reset a cursor moves it behind the tokens that it pulls from it. -/
theorem pulls_perform {command : Command} (h : w.cursor? name = some (Cursor.mk bytes k))
    (hts : Ahead bytes k ts) (hresets : command.resets name = false) :
    ∃ c, (w.perform command).2.cursor? name = some c ∧
      (Cursor.mk bytes k).Pulls (w.pulled name command) c := by
  by_cases htarget : name = command.target
  · cases command with
    | newSink target => simp [Command.resets, htarget, Command.target] at hresets
    | newCursor target source => simp [Command.resets, htarget, Command.target] at hresets
    | newSession target source sink => simp [Command.resets, htarget, Command.target] at hresets
    | onCursor target action =>
        obtain rfl : name = target := htarget
        have hseek : action.isSeek = false := by simpa [Command.resets] using hresets
        obtain ⟨c, hrun, hpulls⟩ := CursorAction.run_of_ahead hseek hts
        refine ⟨c, ?_, ?_⟩
        · rw [perform_onCursor h hrun]
          exact cursor?_setCursor_self h c
        · rw [pulled_onCursor h]
          exact hpulls
    | onSink target action =>
        refine ⟨Cursor.mk bytes k, ?_, ?_⟩
        · rw [cursor?_eq, object?_perform_onSink, ← cursor?_eq, h]
        · rw [pulled_onSink]
          rfl
    | onSession target action =>
        obtain rfl : name = target := htarget
        cases hsession : w.session? name with
        | none =>
            refine ⟨Cursor.mk bytes k, ?_, ?_⟩
            · rw [perform_onSession_of_none hsession]
              exact h
            · rw [pulled_onSession_of_none hsession]
              rfl
        | some result =>
            obtain ⟨s, index⟩ := result
            have hcursor : s.cursor = Cursor.mk bytes k :=
              Option.some.inj ((cursor?_of_session? hsession).symm.trans h)
            refine ⟨(action.run s).2.cursor, ?_, ?_⟩
            · rw [perform_onSession hsession, cursor?_eq, object?_setSession, ← cursor?_eq]
              exact cursor?_setCursor_self h _
            · rw [pulled_onSession hsession, ← hcursor]
              exact action.pulls_run s
  · refine ⟨Cursor.mk bytes k, ?_, ?_⟩
    · rw [cursor?_eq, object?_perform_of_ne htarget, ← cursor?_eq, h]
    · rw [pulled_of_ne htarget]
      rfl

/-- So do commands one after another. -/
theorem pulls_after {commands : List Command} (h : w.cursor? name = some (Cursor.mk bytes k))
    (hts : Ahead bytes k ts) (hresets : ∀ command ∈ commands, command.resets name = false) :
    ∃ c, (w.after commands).cursor? name = some c ∧
      (Cursor.mk bytes k).Pulls (w.pulledIn name commands) c := by
  induction commands generalizing w k ts with
  | nil => exact ⟨_, h, rfl⟩
  | cons command more ih =>
      obtain ⟨hfirst, hmore⟩ := List.forall_mem_cons.mp hresets
      obtain ⟨c₁, hc₁, hpulls⟩ := pulls_perform h hts hfirst
      obtain ⟨-, rfl, -, hahead⟩ := hpulls.of_ahead hts
      obtain ⟨c, hc, hrest⟩ := ih hc₁ hahead hmore
      exact ⟨c, hc, hpulls.append hrest⟩

/--
What holds once these tokens of a source are pulled from a cursor on it. The tokens `ts` are those
of the whole source, so `ts.drop pulled.length` are the ones left.
-/
structure HasPulled (w : Workspace) (name : String) (bytes : Bytes) (ts pulled : List Token) :
    Prop where
  pulled_eq : pulled = (Token.stream bytes ts).take pulled.length
  left : (Token.stream bytes ts).drop pulled.length =
    Token.stream bytes (ts.drop pulled.length)
  cursor : w.cursor? name = some (Cursor.mk bytes (Token.lastStop 0 pulled))
  le_length : Token.lastStop 0 pulled ≤ bytes.length
  /-- What the next action on the cursor would reply and pull. -/
  action : ∀ action : CursorAction, action.isSeek = false →
    (w.perform (.onCursor name action)).1 =
        .ok (action.reply (Token.endOf bytes) (ts.drop pulled.length)) ∧
      w.pulled name (.onCursor name action) =
        action.pulledFrom (Token.endOf bytes) (ts.drop pulled.length)
  peek : (∀ other, (w.perform (.onCursor name .peek)).2.object? other = w.object? other) ∧
    (w.perform (.onCursor name .peek)).2.sinks = w.sinks ∧
      (w.perform (.onCursor name .peek)).2.log = w.log
  /-- The next command pulls its tokens with one call of `Cursor.next` after another. -/
  step : ∀ command : Command, command.resets name = false →
    ∃ c, (w.perform command).2.cursor? name = some c ∧
      (Cursor.mk bytes (Token.lastStop 0 pulled)).Pulls (w.pulled name command) c ∧
      (Token.lastStop 0 pulled : Int) ≤ c.offset

theorem perform_peek (h : w.cursor? name = some (Cursor.mk bytes k)) (hts : Ahead bytes k ts) :
    (w.perform (.onCursor name .peek)).2 = w.setCursor name (Cursor.mk bytes k) := by
  have hrun : CursorAction.peek.run (Cursor.mk bytes k) =
      .ok (.token (ts.headD (Token.endOf bytes)), Cursor.mk bytes k) := by
    rw [CursorAction.run, Cursor.peek_of_ahead hts]
    rfl
  rw [perform_onCursor h hrun]

theorem hasPulled_of_pulls {c : Cursor} {pulled : List Token} (h : w.cursor? name = some c)
    (hpulls : (Cursor.mk bytes 0).Pulls pulled c) (hts : Ahead bytes 0 ts) :
    w.HasPulled name bytes ts pulled := by
  obtain ⟨hstream, rfl, -, hahead⟩ := @Cursor.Pulls.of_ahead bytes 0 ts c pulled hpulls hts
  have hpeek := perform_peek h hahead
  exact
    { pulled_eq := hstream
      left := Token.drop_stream bytes pulled.length ts
      cursor := h
      le_length := hahead.le_length
      action := fun action hseek => by
        obtain ⟨c, hrun, -⟩ := CursorAction.run_of_ahead hseek hahead
        rw [perform_onCursor h hrun, pulled_onCursor h]
        exact ⟨rfl, action.pulled_of_ahead hahead⟩
      peek := by
        rw [hpeek]
        exact ⟨object?_setCursor_of_cursor? h, sinks_setCursor w name _, log_setCursor w name _⟩
      step := fun command hresets => by
        obtain ⟨c, hc, hmore⟩ := pulls_perform h hahead hresets
        obtain ⟨-, rfl, hle, -⟩ := hmore.of_ahead hahead
        exact ⟨_, hc, hmore, Int.ofNat_le.mpr hle⟩ }

end Workspace

/--
Commands that do not reset a cursor pull from it the tokens of its source in order, and then the end
of the input as often as they ask for more. After any of them the cursor stands behind the last
token pulled, and what comes next depends on nothing but how many were pulled.
-/
theorem pulled_is_prefix_of_stream {w : Workspace} {name : String} {source : Source}
    {bytes : Bytes} (h : source.buffer = .ok bytes)
    (hname : w.cursor? name = some { source := bytes }) :
    ∃ ts, source.tokenize = .ok (ts ++ [Token.endOf bytes]) ∧
      ∀ commands : List Command, (∀ command ∈ commands, command.resets name = false) →
        (w.after commands).HasPulled name bytes ts (w.pulledIn name commands) := by
  obtain ⟨ts, hts⟩ := exists_ahead (Nat.zero_le bytes.length)
  refine ⟨ts, (Source.tokenize_eq_iff h).mpr hts, fun commands hresets => ?_⟩
  obtain ⟨c, hc, hpulls⟩ := Workspace.pulls_after hname hts hresets
  exact Workspace.hasPulled_of_pulls hc hpulls hts

/-- The tail of a binding is read to the end of the input, which a released sink cannot report. -/
theorem pulled_is_prefix_of_stream_released :
    let bytes := "let a".toList.map Char.toUInt8
    let w := ({} : Workspace).after [.newSession "p" (.bytes bytes) none]
    let commands : List Command :=
      [.onCursor "p" (.take 1), .onSession "p" .release, .onSession "p" .readBindingTail,
        .onSession "p" .readBinding, .onCursor "p" .tokenize]
    (Source.bytes bytes).buffer = .ok bytes ∧ w.cursor? "p" = some { source := bytes } ∧
      (∀ command ∈ commands, command.resets "p" = false) ∧
      (w.pulledIn "p" commands).map Token.kind =
        [.keyword .letKw, .identifier, .endOfInput, .endOfInput] ∧
      ∃ ts, (Source.bytes bytes).tokenize = .ok (ts ++ [Token.endOf bytes]) ∧
        (w.after commands).HasPulled "p" bytes ts (w.pulledIn "p" commands) := by
  intro bytes w commands
  have hname : w.cursor? "p" = some { source := bytes } := by decide
  have hresets : ∀ command ∈ commands, command.resets "p" = false := by decide
  obtain ⟨ts, htokenize, hall⟩ :=
    @pulled_is_prefix_of_stream w "p" (Source.bytes bytes) bytes rfl hname
  exact ⟨rfl, hname, hresets, by decide, ts, htokenize, hall commands hresets⟩

end LetLang
