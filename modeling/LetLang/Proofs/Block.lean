import LetLang.Proofs.Refusal
import LetLang.Proofs.Sharing

/-!
# Blocks of calls

A block makes a number of calls and releases the sink behind them, on whichever way it ends. Calls
that return follow one another from session to session (`Session.Returns`), and the first that does
not ends the block where the calls before it left the session. That can only be the very first one:
a call that returns leaves its cursor within the source and its sink open (`Session.Stands`).

Main statement: `block_releases_sink`.
-/

namespace LetLang

namespace Session

variable {s s' : Session} {outcome : Option Statement} {outcomes : List (Option Statement)}
  {n : Nat} {e : Fault}

/-! ## Calls that return -/

/-- The calls return these outcomes, one after another. -/
def Returns : Session → List (Option Statement) → Session → Prop
  | s, [], s' => s = s'
  | s, outcome :: outcomes, s' =>
      ∃ s₁, s.readBinding = (.ok outcome, s₁) ∧ s₁.Returns outcomes s'

/-- The sink is open and the cursor within the source. -/
structure Stands (s : Session) : Prop where
  opened : s.sink.isReleased = false
  nonneg : 0 ≤ s.cursor.offset
  le_length : s.cursor.offset ≤ s.cursor.source.length

theorem Stands.not_refuses (h : s.Stands) (e : Fault) : ¬ s.Refuses e := by
  intro hrefuses
  cases hrefuses with
  | released hsink => exact absurd (hsink.symm.trans h.opened) (by decide)
  | beyond k hsink hoffset hk =>
      have hle := h.le_length
      omega
  | wrapped e hsink hoffset hscan =>
      have hnonneg := h.nonneg
      omega

/-- A call that returns leaves the session where the next one returns, too. -/
theorem stands_of_readBinding (h : s.readBinding = (.ok outcome, s')) : s'.Stands := by
  have hreads : ∀ e, ¬ s.Refuses e := by
    intro e hrefuses
    rw [hrefuses.readBinding_eq] at h
    cases congrArg Prod.fst h
  -- In every case but one the session would have refused the call.
  cases hsink : s.sink with
  | released => exact absurd (.released (by rw [hsink]; rfl)) (hreads _)
  | collecting messages =>
      have hopen : s.sink.isReleased = false := by rw [hsink]; rfl
      rcases s.cursor.exists_ahead_or with ⟨k, ts, hts, hpeek⟩ | ⟨k, hk, hoffset⟩ |
        ⟨hneg, e, hpeek⟩
      · obtain rfl := congrArg Prod.snd (h.symm.trans (readBinding_of_peek_eq hsink hts hpeek))
        have hle := (Cursor.read_of_ahead Production.binding hts).2.le_length
        rw [behind, List.flatMap_singleton]
        exact ⟨rfl, Int.natCast_nonneg _, Int.ofNat_le.mpr hle⟩
      · exact absurd (.beyond k hopen hoffset hk) (hreads _)
      · exact absurd (.wrapped e hopen hneg hpeek) (hreads _)

theorem Stands.exists_returns (h : s.Stands) (n : Nat) :
    ∃ outcomes s', s.Returns outcomes s' ∧ outcomes.length = n := by
  induction n generalizing s with
  | zero => exact ⟨[], s, rfl, rfl⟩
  | succ n ih =>
      rcases s.exists_readBinding_or_refuses with ⟨outcome, s₁, hcall⟩ | ⟨e, hrefuses⟩
      · obtain ⟨outcomes, s', hreturns, hlength⟩ := ih (stands_of_readBinding hcall)
        exact ⟨outcome :: outcomes, s', ⟨s₁, hcall, hreturns⟩, congrArg Nat.succ hlength⟩
      · exact absurd hrefuses (h.not_refuses e)

/-- All calls return, unless the first one is refused. -/
theorem exists_returns_or_refuses (s : Session) (n : Nat) :
    (∃ outcomes s', s.Returns outcomes s' ∧ outcomes.length = n) ∨
      0 < n ∧ ∃ e, s.Refuses e := by
  cases n with
  | zero => exact Or.inl ⟨[], s, rfl, rfl⟩
  | succ n =>
      rcases s.exists_readBinding_or_refuses with ⟨outcome, s₁, hcall⟩ | ⟨e, hrefuses⟩
      · obtain ⟨outcomes, s', hreturns, hlength⟩ := (stands_of_readBinding hcall).exists_returns n
        exact Or.inl ⟨outcome :: outcomes, s', ⟨s₁, hcall, hreturns⟩, congrArg Nat.succ hlength⟩
      · exact Or.inr ⟨Nat.succ_pos n, e, hrefuses⟩

/-- Behind a call that returned, no other one fails. -/
theorem Returns.eq_nil_of_refuses (h : s.Returns outcomes s') (he : s'.Refuses e) :
    outcomes = [] := by
  induction outcomes generalizing s with
  | nil => rfl
  | cons outcome outcomes ih =>
      obtain ⟨s₁, hcall, hrest⟩ := h
      obtain rfl := ih hrest
      obtain rfl : s₁ = s' := hrest
      exact absurd he ((stands_of_readBinding hcall).not_refuses e)

/-! ## Many calls -/

theorem readBindings_of_returns (h : s.Returns outcomes s') :
    s.readBindings outcomes.length = (.ok outcomes, s') := by
  induction outcomes generalizing s with
  | nil =>
      obtain rfl : s = s' := h
      rfl
  | cons outcome outcomes ih =>
      obtain ⟨s₁, hcall, hrest⟩ := h
      rw [List.length_cons, readBindings, hcall]
      simp only [ih hrest]

/-- The first call that fails ends them all, with the session as the calls before it left it. -/
theorem readBindings_of_refuses (h : s.Returns outcomes s') (he : s'.Refuses e)
    (hn : outcomes.length < n) : s.readBindings n = (.error e, s') := by
  induction outcomes generalizing s n with
  | nil =>
      obtain rfl : s = s' := h
      obtain ⟨n, rfl⟩ := Nat.exists_eq_succ_of_ne_zero (Nat.ne_of_gt hn)
      rw [readBindings, he.readBinding_eq]
  | cons outcome outcomes ih =>
      obtain ⟨s₁, hcall, hrest⟩ := h
      obtain ⟨n, rfl⟩ := Nat.exists_eq_succ_of_ne_zero (Nat.ne_of_gt (Nat.zero_lt_of_lt hn))
      rw [readBindings, hcall]
      simp only [ih hrest (Nat.lt_of_succ_lt_succ hn)]

/-- What a block of so many calls comes to. -/
structure EndsBlock (s : Session) (n : Nat) (fails : Bool) : Prop where
  returned : ∀ outcomes s', s.Returns outcomes s' → outcomes.length = n →
    s.block n fails = (if fails then .error .blockFailed else .ok outcomes, s'.release)
  failed : ∀ outcomes s' e, s.Returns outcomes s' → outcomes.length < n →
    s'.readBinding.1 = .error e → s.block n fails = (.error e, s'.release)
  /-- Either all calls return, or one of them is the first to fail. -/
  settled : (∃ outcomes s', s.Returns outcomes s' ∧ outcomes.length = n) ∨
    ∃ outcomes s' e, s.Returns outcomes s' ∧ outcomes.length < n ∧ s'.readBinding.1 = .error e
  /-- It is the very first of all. -/
  first : ∀ outcomes s' e, s.Returns outcomes s' → s'.readBinding.1 = .error e →
    outcomes = [] ∧ s.Refuses e

theorem endsBlock (s : Session) (n : Nat) (fails : Bool) : s.EndsBlock n fails where
  returned outcomes s' h hn := by
    subst hn
    rw [block, readBindings_of_returns h]
  failed outcomes s' e h hn he := by
    rw [block, readBindings_of_refuses h (readBinding_error_iff.mp he) hn]
  settled := by
    rcases s.exists_returns_or_refuses n with hreturns | ⟨hn, e, he⟩
    · exact Or.inl hreturns
    · exact Or.inr ⟨[], s, e, rfl, hn, readBinding_error_iff.mpr he⟩
  first outcomes s' e h he := by
    have hrefuses := readBinding_error_iff.mp he
    obtain rfl := h.eq_nil_of_refuses hrefuses
    obtain rfl : s = s' := h
    exact ⟨rfl, hrefuses⟩

end Session

/-! ## In a workspace -/

namespace Workspace

variable {w : Workspace} {name : String} {s : Session} {index : Nat}

/-- No action of a session gives a name another sink. -/
theorem sinkIndex?_perform_onSession (w : Workspace) (target : String) (action : SessionAction)
    (name : String) :
    (w.perform (.onSession target action)).2.sinkIndex? name = w.sinkIndex? name := by
  have hfixed : ∀ object : Option Object,
      object.bind Object.sink? = (object.map Object.fixed).bind Object.sink? := by
    intro object
    cases object with
    | none => rfl
    | some object => exact (object.sink?_fixed).symm
  rw [sinkIndex?_eq, sinkIndex?_eq, hfixed, fixed_perform_onSession, ← hfixed]

/-- An action on a session leaves its sink and its cursor as the session has them behind it. -/
theorem session?_perform_onSession (h : w.session? name = some (s, index))
    (action : SessionAction) :
    (w.perform (.onSession name action)).2.session? name = some ((action.run s).2, index) := by
  obtain ⟨source, hobject, hsink⟩ := object?_of_session? h
  have hthere : (w.setSession name index (action.run s).2).object? name =
      some (.session source (action.run s).2.cursor index) := by
    rw [object?_setSession, object?_setCursor_self, hobject]
    rfl
  have hset : (w.setSession name index (action.run s).2).sinks[index]? =
      some (action.run s).2.sink := by
    rw [sinks_setSession, sinks_set_self hsink]
  rw [perform_onSession h, session?_of_object? hthere hset]
  rfl

end Workspace

/--
Whatever the state of a session and its sink is and whoever shares the sink, the sink is released
and empty behind a block, under each of its names. The session stands where the calls that returned
left it. The block comes to the fault of the first call that failed, or else fails if it is told to,
or else returns what the calls returned; the release does not change that.
-/
theorem block_releases_sink {w : Workspace} {name : String} {s : Session} {index : Nat}
    (h : w.session? name = some (s, index)) (n : Nat) (fails : Bool) :
    let ended := w.perform (.onSession name (.block n fails))
    ended.1 = (s.block n fails).1.map .statements ∧
      ended.2.session? name = some ((s.block n fails).2, index) ∧
      (s.block n fails).2.sink = .released ∧ Sink.released.messages = [] ∧
      (∀ other, w.sinkIndex? other = some index →
        (ended.2.sinkIndex? other).bind (ended.2.sinks[·]?) = some .released) ∧
      s.EndsBlock n fails := by
  intro ended
  have hsession : ended.2.session? name = some ((s.block n fails).2, index) :=
    Workspace.session?_perform_onSession h (.block n fails)
  obtain ⟨source, -, hsink⟩ := Workspace.object?_of_session? hsession
  rw [Session.sink_block] at hsink
  refine ⟨?_, hsession, Session.sink_block s n fails, rfl, fun other hother => ?_,
    s.endsBlock n fails⟩
  · exact congrArg Prod.fst (Workspace.perform_onSession h (.block n fails))
  · rw [Workspace.sinkIndex?_perform_onSession, hother]
    exact hsink

/--
Of two sessions on one sink, the first ends its block behind a statement and a mismatch. The second
finds the sink released: a call in its block is refused, and an empty block fails if it is told to.
-/
theorem block_releases_sink_shared :
    let bytes := "let a = 1; x".toList.map Char.toUInt8
    let w := ({} : Workspace).after
      [.newSink "s", .newSession "a" (.bytes bytes) (some "s"),
        .newSession "b" (.bytes bytes) (some "s")]
    let fresh : Session := { cursor := { source := bytes } }
    let first := w.perform (.onSession "a" (.block 2 false))
    let closed : Session := { fresh with sink := .released, log := first.2.log }
    w.session? "a" = some (fresh, 0) ∧
      (∃ statement, first.1 = .ok (.statements [some statement, none])) ∧
      (first.2.session? "a").map (·.1.cursor.offset) = some 12 ∧
      first.2.session? "b" = some (closed, 0) ∧
      (first.2.perform (.onSession "b" (.block 1 true))).1 = .error .sessionReleased ∧
      (first.2.perform (.onSession "b" (.block 0 true))).1 = .error .blockFailed := by
  intro bytes w fresh first closed
  have hfresh : w.session? "a" = some (fresh, 0) := rfl
  obtain ⟨hreply, hsession, hreleased, -⟩ := block_releases_sink hfresh 2 false
  obtain ⟨-, -, hsink⟩ := Workspace.object?_of_session? hsession
  rw [hreleased] at hsink
  have hobject : first.2.object? "b" = w.object? "b" :=
    Workspace.object?_perform_of_ne (by decide) w
  have hclosed : first.2.session? "b" = some (closed, 0) :=
    Workspace.session?_of_object? hobject hsink
  obtain ⟨hrefused, -, -, -, -, hcall⟩ := block_releases_sink hclosed 1 true
  obtain ⟨htold, -, -, -, -, hempty⟩ := block_releases_sink hclosed 0 true
  rw [hcall.failed [] closed .sessionReleased rfl (by decide) rfl] at hrefused
  rw [hempty.returned [] closed rfl rfl] at htold
  let statement : Statement :=
    { ident := { kind := .identifier, span := { start := 4, stop := 5 } }
      value := { token := { kind := .integer, span := { start := 8, stop := 9 } } } }
  have hreturned : (fresh.block 2 false).1 = .ok [some statement, none] := by decide
  refine ⟨hfresh, ⟨statement, ?_⟩, ?_, hclosed, hrefused, htold⟩
  · rw [hreply, hreturned]
    rfl
  · rw [hsession]
    decide

end LetLang
