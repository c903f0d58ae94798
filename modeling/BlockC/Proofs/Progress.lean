import BlockC.Proofs.StatementPrefix

/-! # Reading makes progress

Reading a production is a series of turns: the innermost production takes the next token, or it is
complete and hands its node to the one that waits for it (`Reading.turn`).  Some productions take
any token for their first one, and at the end of the text a token that is taken leaves the place as
it is, so a turn by itself does not say that there is a last one.  But no production that is under
way takes the end of the text (`Underway.take`), and a token puts at most three more productions on
the stack, so each turn lowers what is left to do (`turn_lowers`).

Hence every reading ends, with what `Stream.read` answers (`read_turns`), and has taken a token if
it succeeds (`exists_progress`).  So the statements of a text are read in finitely many rounds
(`exists_rounds`), and the tree of the text is made of them (`parse_rounds`).
-/
namespace BlockC
namespace Grammar

/-! ### Turns -/

/-- A reading under way: the place that it has come to and the productions under way there. -/
structure Reading where
  place : Stream
  stack : Stack

/-- What a turn leads to. -/
inductive Outlook where
  | goesOn (r : Reading)
  | ends (result : Except Fault Node)

/-- One turn of a reading: the innermost production takes the next token, or hands its node to the
next one, or the reading ends. -/
def Reading.turn : Reading → Outlook
  | ⟨s, []⟩ => .ends (.error (s.fault .expr))
  | ⟨s, f :: below⟩ =>
    match f.before s.current, below with
    | .shift frames, below => .goesOn ⟨s.next, frames ++ below⟩
    | .complete n, [] => .ends (.ok n)
    | .complete n, g :: below => .goesOn ⟨s, g.fill n :: below⟩
    | .stuck request, _ => .ends (.error (s.fault request))

/-- The reading ends after a number of turns, with a result, and as the last reading. -/
inductive Reading.Runs : Reading → Nat → Except Fault Node → Reading → Prop
  | ends {r : Reading} {result : Except Fault Node} (h : r.turn = .ends result) :
      Runs r 0 result r
  | goesOn {r r' last : Reading} {n : Nat} {result : Except Fault Node}
      (h : r.turn = .goesOn r') (hs : Runs r' n result last) : Runs r (n + 1) result last

/-- A production is read in a number of turns, with a result and up to a place. -/
inductive ReadsIn (s : Stream) (p : Production) : Nat → Except Fault Node → Stream → Prop
  | refused {request : Request} (h : p.begin s.current = .error request) :
      ReadsIn s p 0 (.error (s.fault request)) s
  | begun {frames : List Frame} {n : Nat} {result : Except Fault Node} {last : Reading}
      (h : p.begin s.current = .ok frames) (hs : Reading.Runs ⟨s.next, frames⟩ n result last) :
      ReadsIn s p n result last.place

section
variable {s : Stream} {stack : Stack} {r' : Reading} {result : Except Fault Node}

/-- A reading goes on because a token is taken or a node is handed over. -/
theorem turn_goesOn (h : Reading.turn ⟨s, stack⟩ = .goesOn r') :
    (∃ f below frames, stack = f :: below ∧ f.before s.current = .shift frames ∧
      r' = ⟨s.next, frames ++ below⟩) ∨
    ∃ f g below n, stack = f :: g :: below ∧ f.before s.current = .complete n ∧
      r' = ⟨s, g.fill n :: below⟩ := by
  cases stack with
  | nil => cases h
  | cons f below =>
    cases hb : f.before s.current with
    | shift frames =>
      simp only [Reading.turn, hb] at h
      cases h
      exact .inl ⟨f, below, frames, rfl, hb, rfl⟩
    | complete n =>
      cases below with
      | nil => simp [Reading.turn, hb] at h
      | cons g rest =>
        simp only [Reading.turn, hb] at h
        cases h
        exact .inr ⟨f, g, rest, n, rfl, hb, rfl⟩
    | stuck request => simp [Reading.turn, hb] at h

/-- A reading ends because its last production is complete or the innermost one is stuck. -/
theorem turn_ends (h : Reading.turn ⟨s, stack⟩ = .ends result) (hne : stack ≠ []) :
    (∃ f n, stack = [f] ∧ f.before s.current = .complete n ∧ result = .ok n) ∨
    ∃ f below request, stack = f :: below ∧ f.before s.current = .stuck request ∧
      result = .error (s.fault request) := by
  cases stack with
  | nil => exact absurd rfl hne
  | cons f below =>
    cases hb : f.before s.current with
    | shift frames => simp [Reading.turn, hb] at h
    | complete n =>
      cases below with
      | nil =>
        simp only [Reading.turn, hb] at h
        cases h
        exact .inl ⟨f, n, rfl, hb, rfl⟩
      | cons g rest => simp [Reading.turn, hb] at h
    | stuck request =>
      simp only [Reading.turn, hb] at h
      cases h
      exact .inr ⟨f, below, request, rfl, hb, rfl⟩

/-- There is one run of a reading only. -/
theorem Reading.Runs.unique {r last last' : Reading} {n m : Nat} {result' : Except Fault Node}
    (h : r.Runs n result last) (h' : r.Runs m result' last') :
    n = m ∧ result = result' ∧ last = last' := by
  induction h generalizing m with
  | ends h =>
    cases h' with
    | ends h' =>
      rw [h] at h'
      cases h'
      exact ⟨rfl, rfl, rfl⟩
    | goesOn h' =>
      rw [h] at h'
      cases h'
  | goesOn h _ ih =>
    cases h' with
    | ends h' =>
      rw [h] at h'
      cases h'
    | goesOn h' hs' =>
      rw [h] at h'
      cases h'
      obtain ⟨rfl, rfl, rfl⟩ := ih hs'
      exact ⟨rfl, rfl, rfl⟩

theorem ReadsIn.unique {p : Production} {n m : Nat} {result' : Except Fault Node}
    {place place' : Stream} (h : ReadsIn s p n result place) (h' : ReadsIn s p m result' place') :
    n = m ∧ result = result' ∧ place = place' := by
  cases h with
  | refused h =>
    cases h' with
    | refused h' =>
      rw [h] at h'
      cases h'
      exact ⟨rfl, rfl, rfl⟩
    | begun h' =>
      rw [h] at h'
      cases h'
  | begun h hs =>
    cases h' with
    | refused h' =>
      rw [h] at h'
      cases h'
    | begun h' hs' =>
      rw [h] at h'
      cases h'
      obtain ⟨rfl, rfl, rfl⟩ := hs.unique hs'
      exact ⟨rfl, rfl, rfl⟩

end

/-! ### How many frames a token brings -/

section
variable {t : Token} {frames : List Frame}

theorem exprFrom_length {above : Level} (h : exprFrom above t = .ok frames) :
    frames.length ≤ 2 := by
  cases exprBegins_of_ok h <;> simp

theorem stmtFrom_length (h : stmtFrom t = .ok frames) : frames.length ≤ 3 := by
  cases stmtBegins_of_ok h with
  | form hf => simp
  | expr hexpr =>
    have hle := exprFrom_length hexpr
    rw [List.length_append, List.length_singleton]
    omega

/-- A production starts with at most three frames. -/
theorem begin_length {p : Production} (h : p.begin t = .ok frames) : frames.length ≤ 3 := by
  cases p with
  | expr above => exact Nat.le_succ_of_le (exprFrom_length h)
  | stmt => exact stmtFrom_length h
  | typeExpr =>
    simp only [Production.begin, typeFrom] at h
    split at h <;> cases h <;> simp
  | literal =>
    simp only [Production.begin] at h
    split at h <;> cases h
    simp
  | name | typeList | params | typedIdent | codeblock | externalVariable =>
    obtain ⟨-, rfl⟩ := requiring_eq_ok h
    simp
  | signed | parenthesized | pointerType | arrayType | funcType | mod | declare | variadic
  | external | externalFunction | func | typeAlias | whileLoop | ifElse | returned =>
    cases h
    simp

theorem operation?_length {left : Node} {level : Level} {role : OperatorRole}
    (h : operation? left t level role = some frames) : frames.length ≤ 2 := by
  cases role with
  | call =>
    obtain ⟨callee, -, -, rfl⟩ := operation?_call_eq_some.mp h
    simp
  | binary | assignment | conditional =>
    cases h
    simp

/-- A token puts at most three frames on the stack, and one takes the place of the frame on top. -/
theorem before_length {f : Frame} (h : f.before t = .shift frames) : frames.length ≤ 4 := by
  cases Frame.before_eq_shift_iff.mp h with
  | operators hop hlt hinner =>
    have hle := operation?_length hinner
    rw [List.length_append, List.length_singleton]
    omega
  | token hset => simp
  | node hset hinner =>
    have hle := begin_length hinner
    rw [List.length_append, List.length_singleton]
    omega

end

/-! ### Every turn lowers what is left to do -/

/-- The form of the stacks that reading a production leads to: a literal by itself, or a stack that
rests inside a file. -/
def Underway (stack : Stack) : Prop :=
  (∃ n, stack = [.complete n]) ∨ Resting (stack ++ [fileWaiting []])

theorem begin_underway {p : Production} {t : Token} {frames : List Frame}
    (h : p.begin t = .ok frames) : Underway frames := by
  cases p with
  | literal =>
    simp only [Production.begin] at h
    split at h
    · cases h
      exact .inl ⟨_, rfl⟩
    · cases h
  | name =>
    obtain ⟨-, rfl⟩ := requiring_eq_ok h
    refine .inr (building_opened ?_ _ .file)
    exact ⟨by simp, rfl⟩
  | signed | parenthesized | pointerType | arrayType | funcType | mod | declare | external | func
  | typeAlias | whileLoop | returned =>
    cases h
    refine .inr (building_opened ?_ _ .file)
    simp [Regular, Production.Asked, Closes, closingKinds, Part.mark, Kind.Required, Choice.behind]
  | expr | typeExpr | typeList | stmt | typedIdent | params | variadic | codeblock
  | externalFunction | externalVariable | ifElse =>
    exact .inr ((begin_building (by simp [Production.Used, Production.Asked]) h).2 _ .file)

theorem Underway.ne_nil {stack : Stack} (h : Underway stack) : stack ≠ [] := by
  rintro rfl
  rcases h with ⟨n, h⟩ | h
  · cases h
  · cases h with
    | partly hr _ => exact hr

namespace Stream

variable {s : Stream}

theorem ahead_ne_nil (h : s.current.kind ≠ .eof) : s.ahead ≠ [] := by
  intro hnil
  exact h (by simp [current, hnil, Token.eof])

theorem length_next (h : s.ahead ≠ []) : s.next.ahead.length + 1 = s.ahead.length := by
  obtain ⟨t, rest, hs⟩ := List.exists_cons_of_ne_nil h
  simp [next, hs]

/-- At the end of the text the place stays as it is. -/
theorem next_of_nil (h : s.ahead = []) : s.next = s := by
  simp [next, h]

theorem length_next_le (s : Stream) : s.next.ahead.length ≤ s.ahead.length := by
  by_cases hs : s.ahead = []
  · exact Nat.le_of_eq (by rw [next_of_nil hs])
  · exact Nat.le_of_succ_le (Nat.le_of_eq (length_next hs))

end Stream

section
variable {s : Stream} {f g : Frame} {below : Stack}

/-- No stack takes the end of the text. -/
theorem Underway.take {frames : List Frame} (h : Underway (f :: below))
    (hb : f.before s.current = .shift frames) : s.ahead ≠ [] ∧ Underway (frames ++ below) := by
  rcases h with ⟨n, heq⟩ | hr
  · cases heq
    cases hb
  · obtain ⟨hknown, hresting⟩ := shift_resting hr hb
    exact ⟨Stream.ahead_ne_nil hknown.1, .inr (by simpa using hresting)⟩

theorem Underway.handOver (h : Underway (f :: g :: below)) (n : Node) :
    Underway (g.fill n :: below) := by
  rcases h with ⟨n, heq⟩ | hr
  · cases heq
  · exact .inr (hr.waiting.fill n)

end

/-- What a reading has left to do: the productions on the stack, and for each token ahead one turn
that takes it and three productions that it may bring. -/
def Reading.load (r : Reading) : Nat :=
  4 * r.place.ahead.length + r.stack.length

/-- **Each turn keeps the form of the stack and lowers what is left to do.** -/
theorem turn_lowers {r r' : Reading} (h : r.turn = .goesOn r') (hr : Underway r.stack) :
    Underway r'.stack ∧ r'.load < r.load := by
  obtain ⟨s, stack⟩ := r
  rcases turn_goesOn h with ⟨f, below, frames, rfl, hb, rfl⟩ | ⟨f, g, below, n, rfl, -, rfl⟩
  · obtain ⟨hahead, hnext⟩ := hr.take hb
    have hlength := Stream.length_next hahead
    have hle := before_length hb
    refine ⟨hnext, ?_⟩
    simp only [Reading.load, List.length_append, List.length_cons]
    omega
  · refine ⟨hr.handOver n, ?_⟩
    simp only [Reading.load, List.length_cons]
    omega

/-- **Every reading ends**, after at most as many turns as the load that it gets rid of. -/
theorem exists_run (r : Reading) (hr : Underway r.stack) :
    ∃ n result last, r.Runs n result last ∧ n + 4 * last.place.ahead.length < r.load := by
  cases h : r.turn with
  | ends result =>
    refine ⟨0, result, r, .ends h, ?_⟩
    have hpos := List.length_pos_iff.mpr hr.ne_nil
    rw [Reading.load]
    omega
  | goesOn r' =>
    obtain ⟨hr', hlt⟩ := turn_lowers h hr
    obtain ⟨n, result, last, hruns, hle⟩ := exists_run r' hr'
    exact ⟨n + 1, result, last, .goesOn h hruns, by omega⟩
termination_by r.load

/-! ### What the turns come to -/

section
variable {s : Stream} {stack : Stack}

theorem drive_done {n : Node} (h : feed s.current stack = .done n) :
    drive s stack s.ahead = ⟨.ok n, s, []⟩ := by
  obtain ⟨index, last, ahead, stop⟩ := s
  cases ahead <;> simp_all [drive, Stream.current]

theorem drive_stuck {request : Request} {pending : Stack}
    (h : feed s.current stack = .stuck request pending) :
    drive s stack s.ahead = ⟨.error (s.fault request), s, pending⟩ := by
  obtain ⟨index, last, ahead, stop⟩ := s
  cases ahead <;> simp_all [drive, Stream.current]

/-- What is read does not depend on the tokens that the place has ahead, but on those that are
given. -/
theorem drive_ahead (ahead ts : List Token) :
    drive { s with ahead := ahead } stack ts = drive s stack ts := by
  induction ts generalizing s stack with
  | nil => rfl
  | cons t rest ih =>
    simp only [drive]
    cases feed t stack with
    | shift next => exact @ih { s with index := s.index + 1, last := some t } next
    | done n => rfl
    | stuck request pending => rfl

theorem drive_shift {next : Stack} (h : feed s.current stack = .shift next) (hs : s.ahead ≠ []) :
    drive s stack s.ahead = drive s.next next s.next.ahead := by
  obtain ⟨index, last, ahead, stop⟩ := s
  cases ahead with
  | nil => exact absurd rfl hs
  | cons t rest =>
    have hfeed : feed t stack = .shift next := h
    simp only [drive, hfeed, Stream.next]
    exact (drive_ahead rest rest).symm

/-- Stacks that do the same before the next token read the same. -/
theorem drive_congr {other : Stack} (h : feed s.current stack = feed s.current other) :
    drive s stack s.ahead = drive s other s.ahead := by
  obtain ⟨index, last, ahead, stop⟩ := s
  cases ahead <;> simp_all [drive, Stream.current]

end

/-- A run of the turns comes to what driving the stack comes to, on top of other frames too: at its
end, they get its node or are left below a stack that is stuck. -/
theorem Reading.Runs.drive_onTop {r last : Reading} {n : Nat} {result : Except Fault Node}
    (h : r.Runs n result last) (hr : Underway r.stack) (below : Stack) :
    (∃ node, result = .ok node ∧ drive r.place (r.stack ++ below) r.place.ahead =
      drive last.place (.complete node :: below) last.place.ahead) ∨
    ∃ fault, result = .error fault ∧ drive r.place (r.stack ++ below) r.place.ahead =
      ⟨.error fault, last.place, last.stack ++ below⟩ := by
  induction h with
  | @ends r result h =>
    obtain ⟨s, stack⟩ := r
    rcases turn_ends h hr.ne_nil with ⟨f, n, rfl, hb, rfl⟩ | ⟨f, frames, request, rfl, hb, rfl⟩
    · refine .inl ⟨n, rfl, drive_congr ?_⟩
      simp only [List.singleton_append, feed, hb]
      rfl
    · refine .inr ⟨_, rfl, drive_stuck ?_⟩
      simp only [List.cons_append, feed, hb]
  | @goesOn r r' last n result h _ ih =>
    obtain ⟨s, stack⟩ := r
    have hstep : drive s (stack ++ below) s.ahead =
        drive r'.place (r'.stack ++ below) r'.place.ahead := by
      rcases turn_goesOn h with ⟨f, rest, frames, rfl, hb, rfl⟩ | ⟨f, g, rest, n, rfl, hb, rfl⟩
      · have hshift : feed s.current (f :: rest ++ below) = .shift (frames ++ (rest ++ below)) :=
          feed_of_shift hb
        rw [drive_shift hshift (hr.take hb).1, List.append_assoc]
      · exact drive_congr (feed_of_complete hb)
    rw [hstep]
    exact ih (turn_lowers h hr).1

/-- A production that is begun is read by driving its frames. -/
theorem read_begun {s : Stream} {p : Production} {frames : List Frame}
    (h : p.begin s.current = .ok frames) : s.read p = drive s.next frames s.next.ahead := by
  simp [Stream.read, h]

theorem read_refused {s : Stream} {p : Production} {request : Request}
    (h : p.begin s.current = .error request) : s.read p = ⟨.error (s.fault request), s, []⟩ := by
  simp [Stream.read, h]

/-- The turns from the frames that a production begins with come to what is answered. -/
theorem Reading.Runs.read {s : Stream} {p : Production} {frames : List Frame} {n : Nat}
    {result : Except Fault Node} {last : Reading} (h : Reading.Runs ⟨s.next, frames⟩ n result last)
    (hbegin : p.begin s.current = .ok frames) :
    (s.read p).result = result ∧ (s.read p).stream = last.place := by
  have hread : s.read p = drive s.next (frames ++ []) s.next.ahead := by
    rw [read_begun hbegin, List.append_nil]
  rcases h.drive_onTop (begin_underway hbegin) [] with ⟨node, rfl, hdrive⟩ | ⟨fault, rfl, hdrive⟩
  · rw [hread.trans (hdrive.trans (drive_done rfl))]
    exact ⟨rfl, rfl⟩
  · rw [hread.trans hdrive]
    exact ⟨rfl, rfl⟩

/-- **A production is read in finitely many turns**: at most four for each token that they take, and
two more. -/
theorem read_turns (s : Stream) (p : Production) :
    ∃ n, ReadsIn s p n (s.read p).result (s.read p).stream ∧
      n + 4 * (s.read p).stream.ahead.length ≤ 4 * s.ahead.length + 2 := by
  cases h : p.begin s.current with
  | error request =>
    rw [read_refused h]
    exact ⟨0, .refused h, by simp⟩
  | ok frames =>
    obtain ⟨n, result, last, hruns, hlt⟩ := exists_run ⟨s.next, frames⟩ (begin_underway h)
    obtain ⟨hresult, hstream⟩ := hruns.read h
    rw [hresult, hstream]
    refine ⟨n, .begun h hruns, ?_⟩
    have hle := begin_length h
    have hnext := s.length_next_le
    simp only [Reading.load] at hlt
    omega

/-! ### Places in a list of tokens -/

namespace Stream

/-- The place before the `i`-th of some tokens, with the end of the text behind them. -/
def ofTokens (ts : List Token) (stop : Position) (i : Nat) : Stream :=
  ⟨i, (ts.take i).getLast?, ts.drop i, stop⟩

section
variable {ts : List Token} {stop : Position} {i : Nat}

theorem ahead_ofTokens_ne_nil : (ofTokens ts stop i).ahead ≠ [] ↔ i < ts.length := by
  simp [ofTokens]

theorem next_ofTokens (h : i < ts.length) :
    (ofTokens ts stop i).next = ofTokens ts stop (i + 1) := by
  have htake : ts.take (i + 1) = ts.take i ++ [ts[i]] := (List.take_append_getElem h).symm
  have hdrop : ts.drop i = ts[i] :: ts.drop (i + 1) := List.drop_eq_getElem_cons h
  simp only [ofTokens, next, hdrop, htake, List.getLast?_concat]

/-- The next place is the next token, or still the end of the text. -/
theorem exists_next (hi : i ≤ ts.length) :
    ∃ j, (ofTokens ts stop i).next = ofTokens ts stop j ∧ i ≤ j ∧ j ≤ ts.length ∧
      (i < ts.length → i < j) := by
  by_cases hlt : i < ts.length
  · exact ⟨i + 1, next_ofTokens hlt, Nat.le_succ i, hlt, fun _ => Nat.lt_succ_self i⟩
  · have hnil : (ofTokens ts stop i).ahead = [] :=
      Classical.not_not.mp (hlt ∘ ahead_ofTokens_ne_nil.mp)
    exact ⟨i, next_of_nil hnil, Nat.le_refl i, hi, fun h => absurd h hlt⟩

end

/-- Where no token is the end of the text, only the place behind them is at the end. -/
theorem current_ne_eof {s : Stream} (h : ∀ t ∈ s.ahead, t.kind ≠ .eof) :
    s.current.kind ≠ .eof ↔ s.ahead ≠ [] := by
  refine ⟨ahead_ne_nil, fun hs => ?_⟩
  obtain ⟨t, rest, hahead⟩ := List.exists_cons_of_ne_nil hs
  have hcurrent : s.current = t := by simp [current, hahead]
  rw [hcurrent]
  exact h t (by simp [hahead])

/-- A token is unexpected only where there is one. -/
theorem fault_unexpected {s : Stream} {request : Request} {k : Nat}
    (h : s.fault request = .unexpected k) : k = s.index ∧ s.ahead ≠ [] := by
  unfold fault at h
  cases hs : s.ahead with
  | nil => simp [hs] at h
  | cons t rest =>
    simp only [hs] at h
    cases h
    exact ⟨rfl, List.cons_ne_nil _ _⟩

end Stream

section
variable {ts : List Token} {stop : Position} {i n : Nat} {result : Except Fault Node}

/-- Turns lead forward, and never past the end of the text. -/
theorem Reading.Runs.forward {r last : Reading} (h : r.Runs n result last) :
    ∀ {i : Nat}, r.place = .ofTokens ts stop i → i ≤ ts.length →
      ∃ j, last.place = .ofTokens ts stop j ∧ i ≤ j ∧ j ≤ ts.length := by
  induction h with
  | ends h => exact fun hplace hi => ⟨_, hplace, Nat.le_refl _, hi⟩
  | @goesOn r r' last n result h _ ih =>
    intro i hplace hi
    obtain ⟨s, stack⟩ := r
    rcases turn_goesOn h with ⟨f, below, frames, rfl, -, rfl⟩ | ⟨f, g, below, n, rfl, -, rfl⟩
    · obtain ⟨j, hnext, hij, hj, -⟩ := Stream.exists_next hi
      obtain ⟨k, hk, hjk, hlen⟩ := ih ((congrArg Stream.next hplace).trans hnext) hj
      exact ⟨k, hk, Nat.le_trans hij hjk, hlen⟩
    · exact ih hplace hi

/-- A reading that ends at an unexpected token ends there. -/
theorem Reading.Runs.unexpected {r last : Reading} {k : Nat} (h : r.Runs n result last)
    (hr : Underway r.stack) (hk : result = .error (.unexpected k)) :
    k = last.place.index ∧ last.place.ahead ≠ [] := by
  induction h with
  | goesOn h _ ih => exact ih (turn_lowers h hr).1 hk
  | @ends r result h =>
    obtain ⟨s, stack⟩ := r
    rcases turn_ends h hr.ne_nil with ⟨f, n, -, -, rfl⟩ | ⟨f, below, request, -, -, rfl⟩
    · cases hk
    · exact Stream.fault_unexpected (Except.error.inj hk)

theorem ReadsIn.forward {p : Production} {place : Stream}
    (h : ReadsIn (.ofTokens ts stop i) p n result place) (hi : i ≤ ts.length) :
    ∃ j, place = .ofTokens ts stop j ∧ i ≤ j ∧ j ≤ ts.length ∧
      (i < ts.length → ∀ node, result = .ok node → i < j) := by
  cases h with
  | refused h => exact ⟨i, rfl, Nat.le_refl i, hi, fun _ _ hok => by cases hok⟩
  | begun h hs =>
    obtain ⟨j, hnext, hij, hj, hlt⟩ := Stream.exists_next hi
    obtain ⟨k, hk, hjk, hlen⟩ := hs.forward hnext hj
    exact ⟨k, hk, Nat.le_trans hij hjk, hlen, fun hi _ _ => Nat.lt_of_lt_of_le (hlt hi) hjk⟩

theorem ReadsIn.unexpected {s place : Stream} {p : Production} {k : Nat}
    (h : ReadsIn s p n result place) (hk : result = .error (.unexpected k)) :
    k = place.index ∧ place.ahead ≠ [] := by
  cases h with
  | refused h => exact Stream.fault_unexpected (Except.error.inj hk)
  | begun h hs => exact hs.unexpected (begin_underway h) hk

end

/-- What comes of reading a production from the `i`-th of some tokens on: the reading ends at the
`j`-th token. -/
structure Progresses (ts : List Token) (stop : Position) (i : Nat) (p : Production) (j : Nat) :
    Prop where
  /-- There is one run of it, which ends with the answer after at most four turns for each token
  that it takes and two more. -/
  ends : ∃ n ≤ 4 * (j - i) + 2, ∀ m result place, ReadsIn (.ofTokens ts stop i) p m result place ↔
    m = n ∧ result = ((Stream.ofTokens ts stop i).read p).result ∧ place = .ofTokens ts stop j
  place : ((Stream.ofTokens ts stop i).read p).stream = .ofTokens ts stop j
  /-- The end of the text is not passed. -/
  inside : i ≤ j ∧ j ≤ ts.length
  /-- If it succeeds before the end of the text, it has moved on. -/
  moves : ∀ node, ((Stream.ofTokens ts stop i).read p).result = .ok node →
    (Stream.ofTokens ts stop i).current.kind ≠ .eof → i < j
  /-- An unexpected token is the one that it ends at, and not the end of the text. -/
  fault : ∀ k, ((Stream.ofTokens ts stop i).read p).result = .error (.unexpected k) →
    k = j ∧ i ≤ k ∧ (Stream.ofTokens ts stop k).current.kind ≠ .eof

/-- **Reading a production ends, and makes progress.** -/
theorem exists_progress {ts : List Token} (hts : ∀ t ∈ ts, t.kind ≠ .eof) (stop : Position)
    {i : Nat} (hi : i ≤ ts.length) (p : Production) : ∃ j, Progresses ts stop i p j := by
  have hahead (j : Nat) : (Stream.ofTokens ts stop j).current.kind ≠ .eof ↔ j < ts.length :=
    (Stream.current_ne_eof fun t ht => hts t (List.mem_of_mem_drop ht)).trans
      Stream.ahead_ofTokens_ne_nil
  obtain ⟨n, hreads, hle⟩ := read_turns (.ofTokens ts stop i) p
  obtain ⟨j, hplace, hij, hj, hmoves⟩ := hreads.forward hi
  refine ⟨j, ⟨n, ?_, fun m result place => ?_⟩, hplace, ⟨hij, hj⟩, fun node hok hne => ?_,
    fun k hk => ?_⟩
  · have hlength (j : Nat) : (Stream.ofTokens ts stop j).ahead.length = ts.length - j :=
      List.length_drop
    rw [hplace, hlength, hlength] at hle
    omega
  · constructor
    · intro h
      obtain ⟨rfl, rfl, rfl⟩ := h.unique hreads
      exact ⟨rfl, rfl, hplace⟩
    · rintro ⟨rfl, rfl, rfl⟩
      exact hplace ▸ hreads
  · exact hmoves ((hahead i).mp hne) node hok
  · obtain ⟨rfl, hne⟩ := hreads.unexpected hk
    rw [hplace] at hne ⊢
    exact ⟨rfl, hij, (hahead j).mpr (Stream.ahead_ofTokens_ne_nil.mp hne)⟩

/-! ### The rounds of a text -/

/-- Statements read one after the other from a place on, up to the end of the text or to a fault. -/
inductive Rounds : Stream → List Node → Option Fault → Prop
  | finish {s : Stream} (h : s.hasTokens = false) : Rounds s [] none
  | fault {s : Stream} {fault : Fault} (h : s.hasTokens = true)
      (hread : (s.read .stmt).result = .error fault) : Rounds s [] (some fault)
  | stmt {s : Stream} {n : Node} {ns : List Node} {fault : Option Fault} (h : s.hasTokens = true)
      (hread : (s.read .stmt).result = .ok n) (hs : Rounds (s.read .stmt).stream ns fault) :
      Rounds s (n :: ns) fault

section
variable {s : Stream} {done : List Node}

/-- A file that has no tokens ahead is complete. -/
theorem drive_file_end (h : s.ahead = []) :
    drive s [fileAfter done] s.ahead =
      ⟨.ok (.assemble "source_file" .origin done.reverse), s, []⟩ := by
  refine drive_done ?_
  simp [Stream.current, h, Token.eof, feed, fileAfter, Frame.before, settle, Choice.rename?,
    Choice.expand, resume]

/-- Before a token, a file reads a statement and goes on behind it, or the fault of the statement is
the fault of the file. -/
theorem drive_file (h : s.current.kind ≠ .eof) :
    (∃ n, (s.read .stmt).result = .ok n ∧ drive s [fileAfter done] s.ahead =
      drive (s.read .stmt).stream [fileAfter (n.inField none :: done)]
        (s.read .stmt).stream.ahead) ∨
    ∃ fault, (s.read .stmt).result = .error fault ∧
      (drive s [fileAfter done] s.ahead).result = .error fault ∧
      (drive s [fileAfter done] s.ahead).pending.outermost = done.reverse := by
  have hbefore : (fileAfter done).before s.current =
      (Frame.partly "source_file" done [.node .stmt none, .choice .topLevel]).before s.current := by
    have hexpand : Choice.topLevel.expand s.current.kind =
        [.node .stmt none, .choice .topLevel] := by
      simp [Choice.expand]
    rw [fileAfter, before_choice rfl (by rw [hexpand]; rfl), hexpand]
    rfl
  cases hbegin : Production.stmt.begin s.current with
  | error request =>
    have hstuck : feed s.current [fileAfter done] = .stuck request [fileAfter done] := by
      rw [feed, hbefore]
      simp [Frame.before, settle, hbegin]
    rw [read_refused hbegin, drive_stuck hstuck]
    exact .inr ⟨_, rfl, rfl, outermost_single done _ _⟩
  | ok frames =>
    have hshift : feed s.current [fileAfter done] = .shift (frames ++ [fileWaiting done] ++ []) :=
      feed_of_shift (hbefore.trans (before_node hbegin))
    obtain ⟨n, result, last, hruns, -⟩ := exists_run ⟨s.next, frames⟩ (begin_underway hbegin)
    obtain ⟨hresult, hstream⟩ := hruns.read hbegin
    rw [drive_shift hshift (Stream.ahead_ne_nil h), List.append_nil, hresult, hstream]
    rcases hruns.drive_onTop (begin_underway hbegin) [fileWaiting done] with
      ⟨node, rfl, hdrive⟩ | ⟨fault, rfl, hdrive⟩
    · exact .inl ⟨node, rfl, hdrive.trans (drive_congr rfl)⟩
    · refine .inr ⟨fault, rfl, ?_⟩
      rw [show drive s.next (frames ++ [fileWaiting done]) s.next.ahead = _ from hdrive]
      exact ⟨rfl, outermost_append _ _ _ _⟩

end

/-- What reading a whole file leads to, with these statements and this fault. -/
structure Recorded (outcome : Outcome) (ns : List Node) (fault : Option Fault) : Prop where
  complete : fault = none → outcome.result = .ok (.assemble "source_file" .origin ns)
  faulty : ∀ f, fault = some f → outcome.result = .error f ∧ outcome.pending.outermost = ns

/-- **The statements of a text are read in finitely many rounds.** -/
theorem exists_rounds {ts : List Token} (hts : ∀ t ∈ ts, t.kind ≠ .eof) (stop : Position)
    (i : Nat) (hi : i ≤ ts.length) (done : List Node) :
    ∃ ns fault, Rounds (.ofTokens ts stop i) ns fault ∧ ns.length ≤ ts.length - i ∧
      Recorded (drive (.ofTokens ts stop i) [fileAfter done] (Stream.ofTokens ts stop i).ahead)
        (done.reverse ++ ns.map (·.inField none)) fault := by
  have hahead : ∀ t ∈ (Stream.ofTokens ts stop i).ahead, t.kind ≠ .eof :=
    fun t ht => hts t (List.mem_of_mem_drop ht)
  by_cases hend : (Stream.ofTokens ts stop i).ahead = []
  · refine ⟨[], none, .finish (by simp [Stream.hasTokens, hend]), Nat.zero_le _, ?_, ?_⟩
    · intro _
      rw [drive_file_end hend, List.map_nil, List.append_nil]
    · intro f hf
      cases hf
  · have hmore : (Stream.ofTokens ts stop i).hasTokens = true := by simp [Stream.hasTokens, hend]
    have hne := (Stream.current_ne_eof hahead).mpr hend
    rcases drive_file hne with ⟨n, hread, hdrive⟩ | ⟨fault, hread, hresult, hpending⟩
    · obtain ⟨j, hprogress⟩ := exists_progress hts stop hi .stmt
      have hij : i < j := hprogress.moves n hread hne
      have hplace := hprogress.place
      obtain ⟨ns, fault, hrounds, hlength, hrecorded⟩ :=
        exists_rounds hts stop j hprogress.inside.2 (n.inField none :: done)
      refine ⟨n :: ns, fault, .stmt hmore hread (hplace ▸ hrounds), ?_, ?_⟩
      · have := hprogress.inside.2
        rw [List.length_cons]
        omega
      · rw [hdrive, hplace]
        simpa using hrecorded
    · refine ⟨[], some fault, .fault hmore hread, Nat.zero_le _, ?_, ?_⟩
      · intro hf
        cases hf
      · intro f hf
        cases hf
        rw [List.map_nil, List.append_nil]
        exact ⟨hresult, hpending⟩
termination_by ts.length - i
decreasing_by
  have := hprogress.inside.2
  omega

/-- The tree of a text is made of the statements that the rounds come to, and of the record of the
fault that they end with. -/
theorem parse_rounds (source : String) :
    ∃ ns fault, Rounds (.ofString source) ns fault ∧ ns.length ≤ (tokens source).length ∧
      parse source = .assemble "source_file" .origin
        (ns.map (·.inField none) ++ (fault.map (Fault.record (tokens source))).toList) := by
  obtain ⟨ns, fault, hrounds, hlength, hrecorded⟩ :=
    exists_rounds (fun t => kind_ne_eof_of_mem_tokens) (endOfText source) 0 (Nat.zero_le _) []
  refine ⟨ns, fault, hrounds, hlength, ?_⟩
  cases fault with
  | none => simpa using parse_of_ok (hrecorded.complete rfl)
  | some f =>
    obtain ⟨hresult, hpending⟩ := hrecorded.faulty f rfl
    rw [parse_of_error hresult]
    exact congrArg (fun cs => Node.assemble "source_file" .origin (cs ++ _)) hpending

end Grammar

open Grammar

/-- **Parsing makes progress and ends.**  Whatever is read from a list of tokens, from whichever of
them on, the reading ends; it does not pass the end of the text, it has moved on if it succeeds
before the end, and an unexpected token is the one that it ends at.  So a text is read in finitely
many rounds, and its tree records the statement of each and the fault of the last. -/
theorem reading_makes_progress :
    (∀ (ts : List Token) (stop : Position) (i : Nat) (p : Production),
      (∀ t ∈ ts, t.kind ≠ .eof) → i ≤ ts.length → ∃ j, Progresses ts stop i p j) ∧
    ∀ source : String, ∃ ns fault, Rounds (.ofString source) ns fault ∧
      ns.length ≤ (tokens source).length ∧
      parse source = .assemble "source_file" .origin
        (ns.map (·.inField none) ++ (fault.map (Fault.record (tokens source))).toList) :=
  ⟨fun _ stop _ p hts hi => exists_progress hts stop hi p, parse_rounds⟩

/-- A call behind a sign, which ends before a name. -/
theorem reading_makes_progress_call :
    ∃ ts stop, ts = tokens "-f(a) b" ∧ (∀ t ∈ ts, t.kind ≠ .eof) ∧
      Progresses ts stop 1 (.expr .lowest) 5 := by
  obtain ⟨ts, hts⟩ : ∃ ts, ts = tokens "-f(a) b" := ⟨_, rfl⟩
  have hkinds : ∀ t ∈ ts, t.kind ≠ .eof := fun t ht => kind_ne_eof_of_mem_tokens (hts ▸ ht)
  have hlength : 1 ≤ ts.length := by
    rw [hts]
    decide
  obtain ⟨j, h⟩ := reading_makes_progress.1 ts .origin 1 (.expr .lowest) hkinds hlength
  have hj : ((Stream.ofTokens ts .origin 1).read (.expr .lowest)).stream.index = 5 := by
    rw [hts]
    decide
  rw [h.place] at hj
  obtain rfl : j = 5 := hj
  exact ⟨ts, .origin, hts, hkinds, h⟩

end BlockC
