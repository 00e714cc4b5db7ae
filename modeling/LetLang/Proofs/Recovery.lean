import LetLang.Proofs.Accounting
import LetLang.Proofs.Reported

/-!
# What becomes of the tokens of a parse

Main statement: `parse_recovers`. Any five tokens in a row that make a binding are a statement of the
result, or the result says that their keyword was found where something else was expected. The
statements come from such tokens, each from its own and in order. All tokens that no binding accepts
are reported, the end of the input apart: it ends a parse without a call where no binding is open.
-/

namespace LetLang

/-! ## Windows -/

/-- Five tokens in a row that make a binding. -/
structure Window (tokens : List Token) where
  before : List Token
  keyword : Token
  ident : Token
  assign : Token
  value : Token
  semicolon : Token
  after : List Token
  tokens_eq : tokens = before ++ [keyword, ident, assign, value, semicolon] ++ after
  keyword_kind : keyword.kind = .keyword .letKw
  ident_kind : ident.kind = .identifier
  assign_kind : assign.kind = .symbol .assign
  value_kind : value.kind = .integer ∨ value.kind = .string
  semicolon_kind : semicolon.kind = .symbol .semicolon

namespace Window

variable {tokens : List Token}

/-- How many tokens come before the window. -/
def index (w : Window tokens) : Nat := w.before.length

def five (w : Window tokens) : List Token := [w.keyword, w.ident, w.assign, w.value, w.semicolon]

/-- The statement of the binding. -/
def statement (w : Window tokens) : Statement where
  ident := w.ident
  value := { token := w.value }

theorem accepts_five (w : Window tokens) : Production.binding.Accepts w.five := by
  have hvalue : w.value.kind ∈ [TokenKind.integer, .string] := by
    simpa using w.value_kind
  refine .cons ?_ (.cons ?_ (.cons ?_ (.cons hvalue (.cons ?_ .nil))))
  · exact List.mem_singleton.mpr w.keyword_kind
  · exact List.mem_singleton.mpr w.ident_kind
  · exact List.mem_singleton.mpr w.assign_kind
  · exact List.mem_singleton.mpr w.semicolon_kind

theorem exists_of_accepts {before us after : List Token} (h : Production.binding.Accepts us)
    (htokens : tokens = before ++ us ++ after) :
    ∃ w : Window tokens, w.five = us ∧ w.index = before.length := by
  obtain ⟨keyword, ident, assign, value, semicolon, rfl, hkeyword, hident, hassign, hvalue,
    hsemicolon⟩ := Production.exists_of_accepts_binding h
  let w : Window tokens :=
    { before, keyword, ident, assign, value, semicolon, after
      tokens_eq := htokens
      keyword_kind := hkeyword
      ident_kind := hident
      assign_kind := hassign
      value_kind := hvalue
      semicolon_kind := hsemicolon }
  exact ⟨w, rfl, rfl⟩

/-- The window with more tokens in front of it. -/
def behind {rest : List Token} (w : Window rest) (front : List Token)
    (h : tokens = front ++ rest) : Window tokens :=
  { w with
    before := front ++ w.before
    tokens_eq := by
      have hrest := congrArg (front ++ ·) w.tokens_eq
      simpa only [List.append_assoc] using h.trans hrest }

section Behind

variable {rest front : List Token} (w : Window rest) (h : tokens = front ++ rest)

@[simp] theorem index_behind : (w.behind front h).index = front.length + w.index :=
  List.length_append

@[simp] theorem five_behind : (w.behind front h).five = w.five := rfl

@[simp] theorem statement_behind : (w.behind front h).statement = w.statement := rfl

end Behind

/-- Where no token is there twice, a statement says which window it comes from. -/
theorem eq_of_statement_eq {v w : Window tokens} (hnodup : tokens.Nodup)
    (h : v.statement = w.statement) : v = w := by
  have hsplit : ∀ u : Window tokens, tokens =
      (u.before ++ [u.keyword]) ++ u.ident :: u.assign :: u.value :: u.semicolon :: u.after :=
    fun u => u.tokens_eq.trans (by simp)
  have hident : v.ident = w.ident := congrArg Statement.ident h
  have hnot : w.ident ∉ (v.before ++ [v.keyword]) ++
      (v.assign :: v.value :: v.semicolon :: v.after) := by
    rw [hsplit v, List.nodup_middle, hident] at hnodup
    exact (List.nodup_cons.mp hnodup).1
  rw [List.mem_append, not_or] at hnot
  obtain ⟨hfront, -, hback⟩ := (List.append_cons_inj_of_notMem hnot.1 hnot.2).mp
    ((hsplit v).symm.trans (hsplit w))
  obtain ⟨hbefore, hkeyword⟩ := List.append_inj' hfront rfl
  cases v
  cases w
  simp_all

/-- The windows are those whose tokens are read as bindings, in order and apart. -/
structure AreRead (windows : List (Window tokens)) (rs : List Reading) : Prop where
  statements : windows.map statement = rs.filterMap Reading.statement?
  apart : windows.Pairwise fun v w => v.index + 5 ≤ w.index
  complete : ∀ w ∈ windows, .complete w.five ∈ rs

namespace AreRead

variable {windows : List (Window tokens)} {rs : List Reading}

theorem nil : AreRead ([] : List (Window tokens)) [] where
  statements := rfl
  apart := .nil
  complete := by simp

theorem behind {rest : List Token} {windows : List (Window rest)} (h : AreRead windows rs)
    (front : List Token) (htokens : tokens = front ++ rest) :
    AreRead (windows.map fun w => w.behind front htokens) rs where
  statements := by
    rw [← h.statements, List.map_map]
    exact List.map_congr_left fun w _ => w.statement_behind htokens
  apart := by
    refine List.pairwise_map.mpr (h.apart.imp ?_)
    intro v w hvw
    rw [index_behind, index_behind]
    omega
  complete := by
    intro w hw
    obtain ⟨v, hv, rfl⟩ := List.mem_map.mp hw
    rw [five_behind]
    exact h.complete v hv

theorem cons_mismatch (h : AreRead windows rs) (accepted : List Token)
    (expected : List TokenKind) (found : Token) :
    AreRead windows (.mismatch accepted expected found :: rs) where
  statements := h.statements
  apart := h.apart
  complete w hw := List.mem_cons_of_mem _ (h.complete w hw)

theorem cons_complete (h : AreRead windows rs) (w : Window tokens)
    (hapart : ∀ v ∈ windows, w.index + 5 ≤ v.index) :
    AreRead (w :: windows) (.complete w.five :: rs) where
  statements := congrArg (w.statement :: ·) h.statements
  apart := .cons hapart h.apart
  complete := by
    refine List.forall_mem_cons.mpr ⟨List.mem_cons_self, ?_⟩
    intro v hv
    exact List.mem_cons_of_mem _ (h.complete v hv)

end AreRead

end Window

namespace Production

/-- The readings of a list of tokens are those of windows in it. -/
theorem exists_windows {stop : Token} (hstop : stop.kind = .endOfInput) (ts more : List Token) :
    ∃ windows : List (Window (ts ++ more)), Window.AreRead windows (readings stop ts) := by
  induction ts using readings.induct stop with
  | case1 =>
      rw [readings_nil]
      exact ⟨[], .nil⟩
  | case2 t ts ih =>
      obtain ⟨windows, hwindows⟩ := ih
      rw [readings_cons]
      rcases readFrom_binding_pulled hstop (t :: ts) with hpulled | ⟨expected, hshort⟩
      · have htokens : t :: ts ++ more = (binding.readFrom stop (t :: ts)).1.pulled ++
            ((binding.readFrom stop (t :: ts)).2 ++ more) := by
          rw [← List.append_assoc, hpulled]
        have hbehind := hwindows.behind _ htokens
        cases hr : (binding.readFrom stop (t :: ts)).1 with
        | complete us =>
            have haccepts := readFrom_complete hr
            have hlength : us.length = 5 := haccepts.length_eq.symm
            have hfirst : t :: ts ++ more = us ++ ((binding.readFrom stop (t :: ts)).2 ++ more) := by
              rwa [hr] at htokens
            obtain ⟨w, rfl, hindex⟩ := @Window.exists_of_accepts _ [] us _ haccepts hfirst
            refine ⟨_, hbehind.cons_complete w fun v hv => ?_⟩
            obtain ⟨u, -, rfl⟩ := List.mem_map.mp hv
            rw [hindex, Window.index_behind, hr, Reading.pulled, hlength]
            exact Nat.le_add_right 5 u.index
        | mismatch accepted expected found => exact ⟨_, hbehind.cons_mismatch _ _ _⟩
      · rw [hshort, readings_nil]
        exact ⟨[], Window.AreRead.nil.cons_mismatch _ _ _⟩

/-- What is read as a binding is not reported. -/
theorem not_mem_found_of_complete {stop t : Token} {ts us : List Token}
    (hstop : stop.kind = .endOfInput) (hnodup : (ts ++ [stop]).Nodup)
    (h : .complete us ∈ readings stop ts) (ht : t ∈ us) :
    t ∉ (readings stop ts).filterMap Reading.found? := by
  apply List.disjoint_of_nodup_append (nodup_accepted_append_found hstop hnodup)
  exact List.mem_flatMap.mpr ⟨_, h, ht⟩

end Production

/-- The last token is in no window, if it is the end of the input. -/
theorem Window.exists_after {stop : Token} {ts : List Token} (w : Window (ts ++ [stop]))
    (hstop : stop.kind = .endOfInput) :
    ∃ after, ts = w.before ++ w.keyword :: ([w.ident, w.assign, w.value, w.semicolon] ++ after) := by
  have htokens := w.tokens_eq
  rcases List.eq_nil_or_concat' w.after with hnil | ⟨after, last, hafter⟩
  · rw [hnil, List.append_nil] at htokens
    have hlast : stop = w.semicolon := by simpa using congrArg List.getLast? htokens
    have hkind := w.semicolon_kind
    rw [← hlast, hstop] at hkind
    contradiction
  · rw [hafter, ← List.append_assoc] at htokens
    obtain ⟨hts, -⟩ := List.append_inj' htokens rfl
    exact ⟨after, hts.trans (List.append_assoc _ _ _)⟩

/-! ## Recovery -/

/-- The kinds that a binding has a place for. -/
def TokenKind.ofBinding : List TokenKind :=
  [.keyword .letKw, .identifier, .symbol .assign, .integer, .string, .symbol .semicolon]

theorem TokenKind.subset_ofBinding : ∀ expected ∈ Production.binding, expected ⊆ ofBinding := by
  decide

/--
How a parse deals with the tokens that make bindings, and with those that have no place in one. The
end of the input is left out: where no binding is open, it ends the parse and is not reported.
-/
structure Recovered (bytes : Bytes) (tokens : List Token) (result : ParseResult) : Prop where
  found_or_reported : ∀ w : Window tokens,
    Xor (w.statement ∈ result.statements) (ReportedOnce bytes result w.keyword)
  in_order : ∃ windows : List (Window tokens),
    windows.map Window.statement = result.statements ∧
      windows.Pairwise fun v w => v.index + 5 ≤ w.index
  from_one : ∀ s ∈ result.statements, ∃! w : Window tokens, w.statement = s
  reported : ∀ t ∈ tokens, t.kind ≠ .endOfInput → t.kind ∉ TokenKind.ofBinding →
    ReportedOnce bytes result t

theorem recovered_of_ahead {bytes : Bytes} {ts : List Token} (h : Ahead bytes 0 ts) :
    Recovered bytes (ts ++ [Token.endOf bytes])
      { statements :=
          (Production.readings (Token.endOf bytes) ts).filterMap Reading.statement?
        diagnostics :=
          Reading.messages bytes (Production.readings (Token.endOf bytes) ts) } := by
  have hstop : (Token.endOf bytes).kind = .endOfInput := rfl
  obtain ⟨windows, hwindows⟩ := Production.exists_windows hstop ts [Token.endOf bytes]
  constructor
  case found_or_reported =>
    intro w
    obtain ⟨after, hts⟩ := w.exists_after hstop
    have hmem : w.keyword ∈ ts := by
      have hsplit : w.keyword ∈
          w.before ++ w.keyword :: ([w.ident, w.assign, w.value, w.semicolon] ++ after) :=
        List.mem_append_right _ List.mem_cons_self
      rwa [← hts] at hsplit
    rw [reportedOnce_iff h hmem rfl]
    rcases Production.complete_or_found hstop w.accepts_five hts with hcomplete | hfound
    · refine Or.inl ⟨List.mem_filterMap.mpr ⟨_, hcomplete, rfl⟩, ?_⟩
      exact Production.not_mem_found_of_complete hstop h.nodup hcomplete List.mem_cons_self
    · refine Or.inr ⟨hfound, ?_⟩
      intro hstatement
      dsimp only at hstatement
      rw [← hwindows.statements] at hstatement
      obtain ⟨v, hv, hsame⟩ := List.mem_map.mp hstatement
      obtain rfl := Window.eq_of_statement_eq h.nodup hsame
      exact Production.not_mem_found_of_complete hstop h.nodup (hwindows.complete v hv)
        List.mem_cons_self hfound
  case in_order => exact ⟨windows, hwindows.statements, hwindows.apart⟩
  case from_one =>
    intro s hs
    dsimp only at hs
    rw [← hwindows.statements] at hs
    obtain ⟨w, -, rfl⟩ := List.mem_map.mp hs
    exact ⟨w, rfl, fun v hv => Window.eq_of_statement_eq h.nodup hv⟩
  case reported =>
    intro t ht hend hkind
    have hmem : t ∈ ts := by
      rcases List.mem_append.mp ht with ht | ht
      · exact ht
      · rw [List.mem_singleton.mp ht] at hend
        exact absurd rfl hend
    rw [reportedOnce_iff h hmem rfl]
    rcases Production.mem_accepted_or_found hstop hmem with haccepted | hfound
    · obtain ⟨expected, hexpected, ht⟩ := Production.exists_mem_of_mem_accepted haccepted
      exact absurd (TokenKind.subset_ofBinding expected hexpected ht) hkind
    · exact hfound

/--
A parse without a limit loses nothing silently, whatever it meets. Five tokens in a row that make a
binding are a statement of the result, or it is reported that their keyword was found instead of
another token. Each statement comes from one such window, and the windows are apart and in order. A
token that has no place in a binding is reported once.
-/
theorem parse_recovers {source : Source} {bytes : Bytes} (h : source.buffer = .ok bytes) :
    ∃ tokens result log, source.tokenize = .ok tokens ∧
      source.parse false none = (.ok result, log) ∧ Recovered bytes tokens result := by
  obtain ⟨ts, hts⟩ := exists_ahead (Nat.zero_le bytes.length)
  exact ⟨_, _, _, (Source.tokenize_eq_iff h).mpr hts,
    Source.parse_false (Source.collect_none_of_ahead h hts), recovered_of_ahead hts⟩

/-- The second keyword is pulled where a name is expected, so the binding that it begins is lost. -/
theorem parse_recovers_swallowed :
    let bytes := "let let a = 1; let b = 2;".toList.map Char.toUInt8
    (Source.bytes bytes).buffer = .ok bytes ∧
      ∃ tokens result log, (Source.bytes bytes).tokenize = .ok tokens ∧
        (Source.bytes bytes).parse false none = (.ok result, log) ∧
        Recovered bytes tokens result := by
  intro bytes
  exact ⟨rfl, @parse_recovers (Source.bytes bytes) bytes rfl⟩

/-- No call pulls the end of the input behind a finished binding, so no diagnostic is about it. -/
theorem end_not_reported :
    let bytes := "let a = 1;".toList.map Char.toUInt8
    ∃ tokens result, (Source.bytes bytes).tokenize = .ok tokens ∧
      ((Source.bytes bytes).parse false none).1 = .ok result ∧
      ¬ ∀ t ∈ tokens, t.kind ∉ TokenKind.ofBinding → ReportedOnce bytes result t := by
  intro bytes
  let last : Token := { kind := .endOfInput, span := { start := 10, stop := 10 } }
  refine ⟨[{ kind := .keyword .letKw, span := { start := 0, stop := 3 } },
      { kind := .identifier, span := { start := 4, stop := 5 } },
      { kind := .symbol .assign, span := { start := 6, stop := 7 } },
      { kind := .integer, span := { start := 8, stop := 9 } },
      { kind := .symbol .semicolon, span := { start := 9, stop := 10 } }, last],
    { statements :=
        [{ ident := { kind := .identifier, span := { start := 4, stop := 5 } }
           value := { token := { kind := .integer, span := { start := 8, stop := 9 } } } }]
      diagnostics := [] }, by decide, by decide, ?_⟩
  intro hreported
  obtain ⟨p, -, j, ⟨message, hmessage, -⟩, -⟩ := hreported last (by simp) (by decide)
  simp at hmessage

end LetLang
