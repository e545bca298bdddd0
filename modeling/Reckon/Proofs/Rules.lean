import Reckon.Proofs.Nesting
import Reckon.Proofs.Replay

/-! # The rules of the machine

The rules that the machine applies depend on the tokens that it reads and on nothing else.
-/

namespace Reckon

def reductions (es : List ParseEvent) : List ParseEvent := es.filter ParseEvent.isReduction

@[simp] theorem reductions_append (es es' : List ParseEvent) :
    reductions (es ++ es') = reductions es ++ reductions es' := List.filter_append _ _

@[simp] theorem reductions_accept : reductions [.accept] = [] := rfl

@[simp] theorem reductions_offer (s : Spanned) (es : List ParseEvent) :
    reductions (.offer s :: es) = reductions es := rfl

def OnlyRules (es : List ParseEvent) : Prop := ∀ event ∈ es, event.isReduction = true

namespace OnlyRules

variable {es : List ParseEvent}

theorem reverse (h : OnlyRules es) : OnlyRules es.reverse :=
  fun event he => h event (List.mem_reverse.mp he)

theorem concat {event : ParseEvent} (h : OnlyRules es) (he : event.isReduction = true) :
    OnlyRules (es ++ [event]) := by
  intro event' hm
  rcases List.mem_append.mp hm with hm | hm
  · exact h event' hm
  · exact List.mem_singleton.mp hm ▸ he

theorem reductions_eq (h : OnlyRules es) : reductions es = es := List.filter_eq_self.mpr h

theorem offered_eq (h : OnlyRules es) : offered es = [] := by
  refine List.filterMap_eq_nil_iff.mpr fun event he => ?_
  have hr := h event he
  cases event <;> first | rfl | cases hr

theorem accept_not_mem (h : OnlyRules es) : .accept ∉ es := fun he => by cases h _ he

end OnlyRules

theorem Half.onlyRules_events (half? : Option Half) : OnlyRules (Half.events half?) := by
  cases half? <;> simp [OnlyRules, events, ParseEvent.isReduction]

namespace Pushdown

variable {limit : UInt64} {finish t : Spanned} {p p' : Pushdown} {ts : List Spanned}
  {rs : List Reading}

theorem onlyRules_before (p : Pushdown) (t : Token) : OnlyRules (p.before t) := by
  cases p with
  | wanted inner outer => simp [OnlyRules, before]
  | complete sum? e outer =>
    have h := Half.onlyRules_events sum?
    cases t with
    | operator op =>
      rw [before]
      split
      · exact h
      · simp [OnlyRules]
    | _ => exact h

theorem onlyRules_after (p : Pushdown) (t : Token) : OnlyRules (p.after t) := by
  unfold after
  split
  · exact (Half.onlyRules_events _).concat rfl
  · exact (Half.onlyRules_events _).concat rfl
  · simp [OnlyRules]

/-- The rules that the machine applies while it reads some tokens. -/
def rules (p : Pushdown) : List Token → List ParseEvent
  | [] => []
  | t :: ts => (p.before t).reverse ++ ((p.after t).reverse ++
      match p.shift t with
      | some next => next.rules ts
      | none => [])

theorem rules_append {ts : List Token} (h : ts.foldlM shift p = some p') (us : List Token) :
    p.rules (ts ++ us) = p.rules ts ++ p'.rules us := by
  induction ts generalizing p with
  | nil =>
    obtain rfl : p = p' := Option.some.inj h
    rfl
  | cons t ts ih =>
    obtain ⟨next, hs, hm⟩ := Option.bind_eq_some_iff.mp h
    rw [List.cons_append, rules, rules, hs]
    simp only [ih hm, List.append_assoc]

theorem rules_finish (p : Pushdown) : p.rules [.finish] = (p.before .finish).reverse := by
  cases p with
  | wanted inner outer => rfl
  | complete sum? e outer => cases outer <;> simp [rules, after, shift]

/-- What is logged while the machine reads some tokens, up to the one behind them. -/
structure Reports (p : Pushdown) (ts : List Spanned) (t : Spanned) (es : List ParseEvent) :
    Prop where
  offered : offered es = (ts ++ [t]).tail
  reductions : reductions es = p.rules (ts.map Spanned.token)
  accept_not_mem : .accept ∉ es

theorem shift_of_step {next : Pushdown} {s : Spanned} (h : p.step limit s = .ok next) :
    p.shift s.token = some next := by
  cases hs : p.shift s.token with
  | none => cases (step_eq_refusal hs limit).symm.trans h
  | some q =>
    by_cases ho : s.token = .opening
    · cases p with
      | wanted inner outer =>
        rw [step_opening ho] at h
        split at h
        · cases h
        · rw [← hs, ho, shift, Except.ok.inj h]
      | complete sum? e outer =>
        rw [ho] at hs
        cases hs
    · rw [Except.ok.inj ((step_of_shift ho hs limit).symm.trans h)]

theorem exists_ahead (ts : List Spanned) (ha : Descent.ahead finish rs = .ok t) :
    ∃ u us, ts ++ [t] = u :: us ∧ Descent.ahead finish (ts.map .ok ++ rs) = .ok u := by
  cases ts with
  | nil => exact ⟨t, [], rfl, ha⟩
  | cons u ts => exact ⟨u, ts ++ [t], rfl, rfl⟩

theorem exists_reports (hm : ts.foldlM (step limit) p = .ok p')
    (ha : Descent.ahead finish rs = .ok t) (log : List ParseEvent) :
    ∃ es, p.Reports ts t es ∧
      p.run limit finish log (ts.map .ok ++ rs) = p'.run limit finish (es.reverse ++ log) rs := by
  induction ts generalizing p log with
  | nil =>
    obtain rfl : p = p' := Except.ok.inj hm
    exact ⟨[], ⟨rfl, rfl, List.not_mem_nil⟩, rfl⟩
  | cons s ts ih =>
    obtain ⟨next, hn, hm⟩ := Descent.bind_eq_ok hm
    obtain ⟨u, us, hus, hahead⟩ := exists_ahead ts ha
    obtain ⟨es, hes, hrun⟩ :=
      ih hm (p.after s.token ++ .offer u :: (p.before s.token ++ log))
    refine ⟨(p.before s.token).reverse ++ .offer u :: ((p.after s.token).reverse ++ es), ?_, ?_⟩
    · have hb := (p.onlyRules_before s.token).reverse
      have hf := (p.onlyRules_after s.token).reverse
      refine ⟨?_, ?_, ?_⟩
      · simp [hb.offered_eq, hf.offered_eq, hes.offered, hus]
      · rw [List.map_cons, rules, shift_of_step hn, reductions_append, hb.reductions_eq,
          reductions_offer, reductions_append, hf.reductions_eq, hes.reductions]
      · simp [hb.accept_not_mem, hf.accept_not_mem, hes.accept_not_mem]
    · rw [List.map_cons, List.cons_append, run, hn, hahead]
      simp [hrun]

/-- The machine does not get past a token: it is the end of the input and comes too early, it is
refused, or what stands behind it cannot be read. -/
inductive Breaks (limit : UInt64) (finish : Spanned) (p : Pushdown) :
    List Reading → Spanned → ParseError → Prop where

  | finish : p.result? = none → Breaks limit finish p [] finish (p.refusal finish)

  | refused {s : Spanned} {rest : List Reading} {error : ParseError} :
      p.step limit s = .error error → Breaks limit finish p (.ok s :: rest) s error

  | fault {s : Spanned} {error : ScanError} {rest : List Reading} {next : Pushdown} :
      p.step limit s = .ok next →
      Breaks limit finish p (.ok s :: .error error :: rest) s (.scan error)

variable {error : ParseError}

theorem Breaks.ahead_eq (h : p.Breaks limit finish rs t error) :
    Descent.ahead finish rs = .ok t := by
  cases h <;> rfl

theorem Breaks.run_eq (h : p.Breaks limit finish rs t error) (hf : finish.token = .finish)
    (log : List ParseEvent) :
    p.run limit finish log rs = .error ⟨error, p.before t.token ++ log⟩ := by
  cases h with
  | finish hr => rw [run, hr, hf]
  | refused hs => rw [run, hs]
  | fault hs =>
    rw [run, hs]
    rfl

theorem exists_breaks (h : p.outcome limit finish rs = .error error)
    (hrs : ∀ error, rs.head? ≠ some (.error error)) :
    ∃ (us : List Spanned) (rest : List Reading) (q : Pushdown) (t : Spanned),
      rs = us.map .ok ++ rest ∧ us.foldlM (step limit) p = .ok q ∧
      q.Breaks limit finish rest t error := by
  induction rs generalizing p with
  | nil =>
    rw [outcome] at h
    cases hr : p.result? with
    | none =>
      rw [hr] at h
      cases h
      exact ⟨[], [], p, finish, rfl, rfl, .finish hr⟩
    | some e =>
      rw [hr] at h
      cases h
  | cons r rs ih =>
    cases r with
    | error x => exact (hrs x rfl).elim
    | ok s =>
      rw [outcome] at h
      cases hs : p.step limit s with
      | error e =>
        rw [hs] at h
        cases h
        exact ⟨[], _, p, s, rfl, rfl, .refused hs⟩
      | ok next =>
        rw [hs] at h
        rcases rs with _ | ⟨_ | u, rs⟩
        case cons.error x =>
          cases h
          exact ⟨[], _, p, s, rfl, rfl, .fault hs⟩
        all_goals
          obtain ⟨us, rest, q, t, hus, hm, hb⟩ := ih h (by simp)
          refine ⟨s :: us, rest, q, t, by rw [hus]; rfl, ?_, hb⟩
          rw [List.foldlM_cons, hs]
          exact hm

end Pushdown

variable {ts : List Spanned}

theorem ne_finish_of_readings {position : Nat} {text : List Char}
    (h : readings position text = ts.map .ok) : ∀ s ∈ ts, s.token ≠ .finish :=
  fun _ hs => token_ne_finish_of_mem_readings (h ▸ List.mem_map_of_mem hs)

theorem head_closings {position n : Nat}
    (h : readings position (List.replicate n ')') = ts.map .ok) :
    ∃ t us, ts.map Spanned.token ++ [.finish] = t :: us ∧ ∀ op, t ≠ .operator op := by
  cases n with
  | zero =>
    obtain rfl : ts = [] := by simpa using h.symm
    exact ⟨.finish, [], rfl, by simp⟩
  | succ n =>
    have hx : Lexes position [')'] (.ok ⟨position, .closing, position + 1⟩) := .symbol rfl
    rw [List.replicate_succ, ← List.singleton_append, readings_lexeme hx (by simp [Apart])] at h
    cases ts with
    | nil => cases h
    | cons s ts =>
      obtain ⟨hs, -⟩ := of_join_singleton_eq_ok_cons h
      obtain rfl := Except.ok.inj hs
      exact ⟨.closing, _, rfl, by simp⟩

namespace Pushdown

variable {limit : UInt64} {p : Pushdown} {error : ParseError}

theorem before_of_ne_operator {t : Token} (h : ∀ op, t ≠ .operator op) (p : Pushdown) :
    p.before t = p.before .finish := by
  cases p with
  | wanted inner outer => rfl
  | complete sum? e outer =>
    cases t with
    | operator op => exact (h op rfl).elim
    | _ => rfl

/-- A token that is refused is no reason to apply a rule that the end of the input is not. -/
theorem before_of_step_error {s : Spanned} (h : p.step limit s = .error error) :
    p.before s.token = p.before .finish := by
  cases p with
  | wanted inner outer => rfl
  | complete sum? e outer =>
    refine before_of_ne_operator (fun op ht => ?_) _
    simp only [step, ht, shift] at h
    split at h <;> cases h

theorem exists_foldlM_of_reaches {a : Automaton} (h : p.count.Reaches limit ts a)
    (hts : ∀ s ∈ ts, s.token ≠ .finish) :
    ∃ p', ts.foldlM (step limit) p = .ok p' ∧ p'.count = a := by
  induction ts generalizing p with
  | nil =>
    cases h
    exact ⟨p, rfl, rfl⟩
  | cons s ts ih =>
    cases h with
    | cons hs h =>
      rw [count_step (hts s List.mem_cons_self)] at hs
      obtain ⟨next, hn, hc⟩ := Descent.map_eq_ok hs
      obtain rfl := Option.some.inj hc
      obtain ⟨p', hm, hp⟩ := ih h fun t ht => hts t (List.mem_cons_of_mem _ ht)
      refine ⟨p', ?_, hp⟩
      rw [List.foldlM_cons, hn]
      exact hm

theorem exists_result?_of_count (h : p.count = ⟨true, 0⟩) : ∃ e, p.result? = some e := by
  cases p with
  | wanted inner outer => cases h
  | complete sum? e outer =>
    cases outer with
    | nil => exact ⟨_, rfl⟩
    | cons inner outer => cases h

/-- A way to the end starts with the rules that the end of the input would call for. -/
theorem before_prefix_rules {p : Pushdown} {t : Token} (h : ∀ op, t ≠ .operator op)
    (us : List Token) : (p.before .finish).reverse <+: p.rules (t :: us) := by
  rw [← before_of_ne_operator h, rules]
  exact List.prefix_append _ _

theorem exists_completion_rules (p : Pushdown) (limit : UInt64) (position : Nat) :
    ∃ (text : List Char) (us : List Spanned) (q : Pushdown) (e : Expr), ¬ StartsWithDigit text ∧
      readings position text = us.map .ok ∧ us.foldlM (step limit) p = .ok q ∧
      q.result? = some e ∧
      (p.before .finish).reverse <+: p.rules (us.map Spanned.token ++ [.finish]) := by
  have hleads : ∃ text, ¬ StartsWithDigit text ∧ p.count.Leads limit position text ⟨true, 0⟩ ∧
      ∀ us : List Spanned, readings position text = us.map .ok →
        (p.before .finish).reverse <+: p.rules (us.map Spanned.token ++ [.finish]) := by
    cases p with
    | wanted inner outer =>
      obtain ⟨text, hd, hl⟩ := Automaton.exists_completion (wanted inner outer).count
      exact ⟨text, hd, hl limit position, fun _ _ => List.nil_prefix⟩
    | complete sum? e outer =>
      -- the groups are closed at once, so that nothing is applied in front of the rules
      refine ⟨_, Automaton.not_startsWithDigit_closings outer.length,
        Automaton.leads_closings limit position outer.length, fun us hus => ?_⟩
      obtain ⟨t, more, hmore, ht⟩ := head_closings hus
      rw [hmore]
      exact before_prefix_rules ht more
  obtain ⟨text, hd, ⟨us, hus, hr⟩, hrules⟩ := hleads
  obtain ⟨q, hm, hq⟩ := exists_foldlM_of_reaches hr (ne_finish_of_readings hus)
  obtain ⟨e, he⟩ := exists_result?_of_count hq
  exact ⟨text, us, q, e, hd, hus, hm, he, hrules us hus⟩

end Pushdown

end Reckon
