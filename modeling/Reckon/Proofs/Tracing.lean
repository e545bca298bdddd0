import Reckon.Proofs.Rules

/-! # The trace of a parse

A parse that succeeds logs its tokens and its tree. One that fails applies no rule that a text with
the same beginning and without an error would not have needed as well.
-/

namespace Reckon

open String (utf8Len)

variable {settings : Settings} {source : String} {ts : List Spanned}

theorem parseTraced_cases (settings : Settings) (source : String) :
    (∃ error, readings 0 source.toList = [.error error] ∧
      parseTraced settings source = ⟨.error (.scan error), []⟩) ∨
    (∀ error, (readings 0 source.toList).head? ≠ some (.error error)) ∧
      ∃ result events, parseTraced settings source =
          ⟨result, Stage.parse.trace (events.map Event.parse)⟩ ∧
        Descent.report (Pushdown.start.run settings.limit (Cursor.start source).finish []
          (readings 0 source.toList)) = (result, events) := by
  unfold parseTraced
  rcases Descent.start_eq source settings.limit with
    ⟨error, hs, hr⟩ | ⟨d, hs, hg, hlog, hlim, hfin, hp⟩
  · exact .inl ⟨error, hr, by rw [hs]⟩
  · refine .inr ⟨fun error h => ?_, d.complete.1, d.complete.2, by rw [hs], ?_⟩
    · rw [← hp, Descent.pending] at h
      split at h <;> cases h
    · rw [← hlim, ← hfin, ← hp, ← hlog]
      exact (Descent.complete_eq hg).symm

theorem exists_trace_of_result? {p : Pushdown} {e : Expr}
    (hread : readings 0 source.toList = ts.map .ok)
    (hm : ts.foldlM (Pushdown.step settings.limit) Pushdown.start = .ok p)
    (hr : p.result? = some e) :
    parse settings source = .ok e ∧ ∃ events,
      (parseTraced settings source).trace =
        .enter .parse :: events.map (fun event => .event (.parse event)) ++ [.leave .parse] ∧
      reductions events = Pushdown.start.rules (ts.map Spanned.token ++ [.finish]) := by
  obtain ⟨es, hes, hrun⟩ := @Pushdown.exists_reports settings.limit (Cursor.start source).finish _
    _ _ _ [] hm rfl []
  rw [List.append_nil, Pushdown.run, hr] at hrun
  have hshift := ((Pushdown.foldlM_step_eq_ok_iff (Nat.zero_le _)).mp hm).1
  rcases parseTraced_cases settings source with
    ⟨error, hr', -⟩ | ⟨-, result, events, htraced, hreport⟩
  · cases ts <;> cases hread.symm.trans hr'
  · rw [hread, hrun] at hreport
    obtain ⟨rfl, rfl⟩ := Prod.mk.inj hreport
    refine ⟨congrArg Traced.result htraced, _,
      (congrArg Traced.trace htraced).trans (Stage.trace_map ..), ?_⟩
    have hb := (p.onlyRules_before .finish).reverse
    rw [Pushdown.rules_append hshift, Pushdown.rules_finish, ← hes.reductions,
      ← hb.reductions_eq, ← reductions_append]
    simp

/-- A text that the machine reads can be completed, and the log goes on with its rules. -/
theorem exists_completed_trace {before : String} {p : Pushdown}
    (hread : readings 0 before.toList = ts.map .ok)
    (hm : ts.foldlM (Pushdown.step settings.limit) Pushdown.start = .ok p) :
    ∃ more e events, parse settings (before ++ more) = .ok e ∧
      (parseTraced settings (before ++ more)).trace =
        .enter .parse :: events.map (fun event => .event (.parse event)) ++ [.leave .parse] ∧
      Pushdown.start.rules (ts.map Spanned.token) ++ (p.before .finish).reverse <+:
        reductions events := by
  obtain ⟨text, us, q, e, hd, hus, hm', he, hrules⟩ :=
    Pushdown.exists_completion_rules p settings.limit (0 + utf8Len before.toList)
  have hreadings : readings 0 (before ++ String.ofList text).toList = (ts ++ us).map .ok := by
    rw [String.toList_append, String.toList_ofList, readings_append fun _ => hd, hread, hus,
      join_map_ok, List.map_append]
  have hshift := ((Pushdown.foldlM_step_eq_ok_iff (Nat.zero_le _)).mp hm).1
  have hsteps : (ts ++ us).foldlM (Pushdown.step settings.limit) Pushdown.start = .ok q := by
    rw [List.foldlM_append, hm]
    exact hm'
  obtain ⟨hp, events, htrace, hevents⟩ := exists_trace_of_result? hreadings hsteps he
  refine ⟨String.ofList text, e, events, hp, htrace, ?_⟩
  rw [hevents, List.map_append, List.append_assoc, Pushdown.rules_append hshift]
  exact (List.prefix_append_right_inj _).mpr hrules

/-- The tokens of a source, its end included, that start where an error is found or earlier. -/
def tokensThrough (source : String) (error : ParseError) : List Spanned :=
  (handed source ++ [⟨source.utf8ByteSize, .finish, source.utf8ByteSize⟩] : List Spanned).filter
    (·.start ≤ error.position)

theorem position_lt_of_mem_readings {r : Reading} (h : r ∈ readings 0 source.toList) :
    r.position < source.utf8ByteSize := by
  have hlt := (position_mem_of_mem_readings h).2
  rwa [Nat.zero_add, String.utf8Len_toList] at hlt

theorem filter_through {ts : List Spanned} {rest : List Reading} {n : Nat}
    (h : readings 0 source.toList = ts.map .ok ++ rest) (hts : ∀ s ∈ ts, s.start ≤ n)
    (hrest : ∀ s, .ok s ∈ rest → n < s.start) (hn : n < source.utf8ByteSize) :
    (handed source ++ [⟨source.utf8ByteSize, .finish, source.utf8ByteSize⟩] : List Spanned).filter
      (·.start ≤ n) = ts := by
  have hfinish : ([⟨source.utf8ByteSize, .finish, source.utf8ByteSize⟩] : List Spanned).filter
      (·.start ≤ n) = [] := by
    simpa using hn
  rw [List.filter_append, hfinish, List.append_nil,
    filter_handed_split h (fun s hs => decide_eq_true (hts s hs)) fun s hs =>
      decide_eq_false (Nat.not_le.mpr (hrest s hs))]

theorem exists_before_of_readings {ts : List Spanned} {r : Reading} {rest : List Reading}
    (h : readings 0 source.toList = ts.map .ok ++ r :: rest) :
    ∃ before behind : String, source = before ++ behind ∧ r.position = before.utf8ByteSize ∧
      readings 0 before.toList = ts.map .ok := by
  obtain ⟨a, x, b, hsource, ha, hx, -, -⟩ := exists_split_of_readings h
  refine ⟨String.ofList a, String.ofList (x ++ b), ?_, ?_, ?_⟩
  · apply String.toList_injective
    simpa using hsource
  · rw [hx.position_eq, Nat.zero_add, String.utf8ByteSize_ofList]
  · rwa [String.toList_ofList]

namespace Pushdown

variable {p q : Pushdown} {us : List Spanned} {t : Spanned} {rest : List Reading}
  {error : ParseError} {limit : UInt64}

theorem position_of_step_error (h : p.step limit t = .error error) : error.position = t.start := by
  cases hs : p.shift t.token with
  | none =>
    cases (step_eq_refusal hs limit).symm.trans h
    rfl
  | some next =>
    by_cases ho : t.token = .opening
    · cases p with
      | wanted inner outer =>
        rw [step_opening ho] at h
        split at h <;> cases h
        rfl
      | complete sum? e outer =>
        rw [ho] at hs
        cases hs
    · cases (step_of_shift ho hs limit).symm.trans h

theorem Breaks.tokensThrough_eq (hus : readings 0 source.toList = us.map .ok ++ rest)
    (hb : q.Breaks limit (Cursor.start source).finish rest t error) :
    tokensThrough source error = us ++ [t] := by
  cases hb with
  | finish hr =>
    rw [tokensThrough, List.filter_append, filter_handed_split hus ?_ fun _ hs => by cases hs]
    · exact congrArg (us ++ ·) (List.filter_eq_self.mpr fun s hs =>
        decide_eq_true (List.mem_singleton.mp hs ▸ Nat.le_refl _))
    · intro s hs
      have hm : .ok s ∈ readings 0 source.toList := by simp [hus, hs]
      exact decide_eq_true (position_lt_of_mem_readings hm).le
  | @refused _ rest _ hs =>
    obtain ⟨hbefore, hbehind⟩ := readings_ordered hus
    have hus' : readings 0 source.toList = (us ++ [t]).map .ok ++ rest := by simpa using hus
    rw [tokensThrough, position_of_step_error hs]
    refine filter_through hus' (fun s hs => ?_) (fun s hs => hbehind _ hs) ?_
    · rcases List.mem_append.mp hs with hs | hs
      · exact (hbefore s hs).le
      · exact List.mem_singleton.mp hs ▸ Nat.le_refl _
    · exact @position_lt_of_mem_readings source (.ok t) (hus ▸ by simp)
  | @fault _ x rest next hs =>
    have hus' : readings 0 source.toList = (us ++ [t]).map .ok ++ .error x :: rest := by
      simpa using hus
    obtain ⟨hbefore, hbehind⟩ := readings_ordered hus'
    refine filter_through hus' (fun s hs => (hbefore s hs).le) (fun s hs => ?_) ?_
    · rcases List.mem_cons.mp hs with hs | hs
      · cases hs
      · exact hbehind _ hs
    · exact @position_lt_of_mem_readings source (.error x) (hus' ▸ by simp)

theorem Breaks.exists_before (hus : readings 0 source.toList = us.map .ok ++ rest)
    (hm : us.foldlM (step limit) start = .ok q)
    (hb : q.Breaks limit (Cursor.start source).finish rest t error) :
    ∃ (before behind : String) (ts : List Spanned) (p : Pushdown), source = before ++ behind ∧
      error.position = before.utf8ByteSize ∧ readings 0 before.toList = ts.map .ok ∧
      ts.foldlM (step limit) start = .ok p ∧
      start.rules (us.map Spanned.token) ++ (q.before t.token).reverse <+:
        start.rules (ts.map Spanned.token) ++ (p.before .finish).reverse := by
  cases hb with
  | finish hr =>
    rw [List.append_nil] at hus
    exact ⟨source, "", us, q, String.append_empty.symm, rfl, hus, hm, List.prefix_refl _⟩
  | refused hs =>
    obtain ⟨before, behind, hsource, hpos, hread⟩ := exists_before_of_readings hus
    refine ⟨before, behind, us, q, hsource, (position_of_step_error hs).trans hpos, hread, hm, ?_⟩
    rw [before_of_step_error hs]
  | @fault _ x rest next hs =>
    have hus' : readings 0 source.toList = (us ++ [t]).map .ok ++ .error x :: rest := by
      simpa using hus
    obtain ⟨before, behind, hsource, hpos, hread⟩ := exists_before_of_readings hus'
    refine ⟨before, behind, us ++ [t], next, hsource, hpos, hread, ?_, ?_⟩
    · rw [List.foldlM_append, hm]
      exact (bind_pure (step limit q t)).trans hs
    · have hshift := ((foldlM_step_eq_ok_iff (Nat.zero_le _)).mp hm).1
      rw [List.map_append, rules_append hshift, List.append_assoc, List.prefix_append_right_inj,
        List.map_singleton, rules, List.append_assoc]
      exact List.prefix_append _ _

end Pushdown

/-- The log of a parse that succeeds with a tree on some tokens. -/
structure Faithful (finish : Spanned) (ts : List Spanned) (e : Expr) (events : List ParseEvent) :
    Prop where
  postorder : ∃ es, Logs .sum ts e finish es ∧ events = es ++ [.offer finish, .accept]
  offered : offered events = ts.tail ++ [finish, finish]
  accepted : ∃ earlier, events = earlier ++ [.accept] ∧ .accept ∉ earlier
  replayed : Replay.run ⟨numerals ts, []⟩ events = some ⟨[], [e]⟩
  groups : events.count .reduceGroup = (ts.map Spanned.token).count .opening
  grounded : Grounded (ts ++ [finish]) ⟨numerals ts, []⟩ events

/-- The log of a parse that fails with an error. -/
structure Broken (settings : Settings) (source : String) (error : ParseError)
    (events : List ParseEvent) : Prop where
  not_accepted : .accept ∉ events
  offered : offered events = (tokensThrough source error).tail
  completable : ∃ before behind more e events', source = before ++ behind ∧
    error.position = before.utf8ByteSize ∧ parse settings (before ++ more) = .ok e ∧
    (parseTraced settings (before ++ more)).trace =
      .enter .parse :: events'.map (fun event => .event (.parse event)) ++ [.leave .parse] ∧
    reductions events <+: reductions events'

theorem Logs.faithful {ts : List Spanned} {e : Expr} {finish : Spanned} {es : List ParseEvent}
    (h : Logs .sum ts e finish es) :
    Faithful finish ts e (es ++ [.offer finish, .accept]) where
  postorder := ⟨es, h, rfl⟩
  offered := by simp [h.offered_eq]
  accepted := ⟨es ++ [.offer finish], by simp, by simp [h.accept_not_mem]⟩
  replayed := by
    have hrun := h.run_eq [] []
    rw [List.append_nil, h.leaves_eq] at hrun
    simp [hrun]
  groups := by simp [h.count_reduceGroup]
  grounded := by
    have hg := h.grounded [] []
    rw [List.append_nil, h.leaves_eq] at hg
    have hoffer : Grounded (ts ++ [finish]) ⟨numerals ts, []⟩ (es ++ [.offer finish]) :=
      hg.concat fun h => by cases h
    simpa using hoffer.concat fun h => by cases h

theorem exists_broken {error : ParseError} (h : parse settings source = .error error)
    (hread : ∀ x, (readings 0 source.toList).head? ≠ some (.error x)) :
    ∃ events, (parseTraced settings source).trace =
        .enter .parse :: events.map (fun event => .event (.parse event)) ++ [.leave .parse] ∧
      Broken settings source error events := by
  rcases parseTraced_cases settings source with ⟨x, hr, -⟩ | ⟨-, result, events, ht, hreport⟩
  · exact (hread x (by rw [hr]; rfl)).elim
  rw [parse_eq_outcome] at h
  obtain ⟨us, rest, q, t, hus, hm, hb⟩ := Pushdown.exists_breaks h hread
  obtain ⟨es, hes, hrun⟩ := Pushdown.exists_reports hm hb.ahead_eq []
  rw [hus, hrun, hb.run_eq rfl, Descent.report] at hreport
  obtain ⟨rfl, rfl⟩ := Prod.mk.inj hreport
  have hrules := (q.onlyRules_before t.token).reverse
  refine ⟨_, (congrArg Traced.trace ht).trans (Stage.trace_map ..), ?_, ?_, ?_⟩
  · simp [hes.accept_not_mem, (q.onlyRules_before t.token).accept_not_mem]
  · rw [hb.tokensThrough_eq hus, ← hes.offered]
    simp [hrules.offered_eq]
  · obtain ⟨before, behind, ts, p, hsource, hpos, hbefore, hm', hprefix⟩ := hb.exists_before hus hm
    obtain ⟨more, e, events', hparse, htrace, hrest⟩ := exists_completed_trace hbefore hm'
    refine ⟨before, behind, more, e, events', hsource, hpos, hparse, htrace, ?_⟩
    rw [← hes.reductions] at hprefix
    refine List.IsPrefix.trans ?_ hrest
    simpa [hrules.reductions_eq] using hprefix

/-- The trace of a parse is a faithful log. One that succeeds offers every token but the first and
then the end of the input twice, reduces a phrase once the token behind it is offered, and builds
the tree. One that fails is not accepted, and applies rules with which the parse of some text goes
on that starts with everything in front of the error. A source has no trace only if its first token
cannot be read. -/
theorem parse_trace_faithful (settings : Settings) (source : String) :
    (∀ e, parse settings source = .ok e → ∃ ts events, tokens source = .ok ts ∧
      (parseTraced settings source).trace =
        .enter .parse :: events.map (fun event => .event (.parse event)) ++ [.leave .parse] ∧
      Faithful ⟨source.utf8ByteSize, .finish, source.utf8ByteSize⟩ ts e events) ∧
    ∀ error, parse settings source = .error error →
      (∀ x, (Cursor.start source).next?.1 = some (.error x) →
        error = .scan x ∧ (parseTraced settings source).trace = []) ∧
      ((∀ x, (Cursor.start source).next?.1 ≠ some (.error x)) → ∃ events,
        (parseTraced settings source).trace =
          .enter .parse :: events.map (fun event => .event (.parse event)) ++ [.leave .parse] ∧
        Broken settings source error events) := by
  refine ⟨fun e h => ?_, fun error h => ?_⟩
  · obtain ⟨ts, es, hts, hl, htrace⟩ := exists_logs_of_parse_eq_ok h
    exact ⟨ts, _, hts, htrace, hl.faithful⟩
  · rw [(Cursor.start source).next?_eq.1, Cursor.upcoming_start]
    refine ⟨fun x hx => ?_, exists_broken h⟩
    rcases parseTraced_cases settings source with ⟨x', hr, ht⟩ | ⟨hread, -⟩
    · rw [hr] at hx
      cases hx
      rw [parse, ht] at h
      exact ⟨(Except.error.inj h).symm, by rw [ht]⟩
    · exact (hread x hx).elim

theorem parse_trace_faithful_leftover :
    (parse ⟨1⟩ "(1)*2" = .ok (.binary .mul (.number 1) (.number 2)) ∧ ∃ ts events,
      tokens "(1)*2" = .ok ts ∧
      (parseTraced ⟨1⟩ "(1)*2").trace =
        .enter .parse :: events.map (fun event => .event (.parse event)) ++ [.leave .parse] ∧
      Faithful ⟨5, .finish, 5⟩ ts (.binary .mul (.number 1) (.number 2)) events) ∧
    (parse ⟨1⟩ "1+2 3" = .error (.mismatch [.finish] (.integer 3) 4) ∧ ∃ events,
      (parseTraced ⟨1⟩ "1+2 3").trace =
        .enter .parse :: events.map (fun event => .event (.parse event)) ++ [.leave .parse] ∧
      Broken ⟨1⟩ "1+2 3" (.mismatch [.finish] (.integer 3) 4) events) ∧
    parse ⟨1⟩ "é" = .error (.scan (.unexpected 'é' 0)) ∧ (parseTraced ⟨1⟩ "é").trace = [] := by
  have hok : parse ⟨1⟩ "(1)*2" = .ok (.binary .mul (.number 1) (.number 2)) := by decide +kernel
  have hleft : parse ⟨1⟩ "1+2 3" = .error (.mismatch [.finish] (.integer 3) 4) := by
    decide +kernel
  have hfirst : parse ⟨1⟩ "é" = .error (.scan (.unexpected 'é' 0)) := by decide +kernel
  have hread : (Cursor.start "1+2 3").next?.1 = some (.ok ⟨0, .integer 1, 1⟩) := by decide +kernel
  have hunread : (Cursor.start "é").next?.1 = some (.error (.unexpected 'é' 0)) := by
    decide +kernel
  refine ⟨⟨hok, (parse_trace_faithful _ _).1 _ hok⟩,
    ⟨hleft, ((parse_trace_faithful _ _).2 _ hleft).2 fun x hx => ?_⟩,
    hfirst, (((parse_trace_faithful _ _).2 _ hfirst).1 _ hunread).2⟩
  rw [hread] at hx
  cases hx

end Reckon
