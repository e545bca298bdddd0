import Reckon.Proofs.Simulation

/-! # What a descent logs

A rule is logged behind the logs of its parts, once the token behind the phrase has been offered.
-/

namespace Reckon

variable {level : Level} {ts : List Spanned} {e : Expr} {next : Spanned} {es : List ParseEvent}

/-- The log of a phrase: all its tokens but the first are offered, and the token behind it is. -/
inductive Logs : Level → List Spanned → Expr → Spanned → List ParseEvent → Prop where

  | literal {s next : Spanned} {n : Int64} : s.token = .integer n →
      Logs .operand [s] (.number n) next [.offer next, .reduceLiteral]

  | group {o c first next : Spanned} {ts : List Spanned} {e : Expr} {es : List ParseEvent} :
      o.token = .opening → Logs .sum (first :: ts) e c es → c.token = .closing →
      Logs .operand (o :: first :: ts ++ [c]) e next
        (.offer first :: es ++ [.offer next, .reduceGroup])

  | operand {ts : List Spanned} {e : Expr} {next : Spanned} {es : List ParseEvent} :
      Logs .operand ts e next es → Logs .product ts e next es

  | product {o first next : Spanned} {op : Operator} {ls rs : List Spanned} {lhs rhs : Expr}
      {es es' : List ParseEvent} : o.token = .operator op → op.isAdditive = false →
      Logs .product ls lhs o es → Logs .operand (first :: rs) rhs next es' →
      Logs .product (ls ++ o :: first :: rs) (.binary op lhs rhs) next
        (es ++ .offer first :: es' ++ [.reduceBinary op])

  | term {ts : List Spanned} {e : Expr} {next : Spanned} {es : List ParseEvent} :
      Logs .product ts e next es → Logs .sum ts e next es

  | sum {o first next : Spanned} {op : Operator} {ls rs : List Spanned} {lhs rhs : Expr}
      {es es' : List ParseEvent} : o.token = .operator op → op.isAdditive = true →
      Logs .sum ls lhs o es → Logs .product (first :: rs) rhs next es' →
      Logs .sum (ls ++ o :: first :: rs) (.binary op lhs rhs) next
        (es ++ .offer first :: es' ++ [.reduceBinary op])

theorem Logs.ne_nil (h : Logs level ts e next es) : ts ≠ [] := by
  induction h with
  | literal | group => exact List.cons_ne_nil _ _
  | product | sum => simp
  | operand _ ih | term _ ih => exact ih

namespace Descent

/-- Between two states of a descent some tokens are read and some events logged. -/
structure Passes (d : Descent) (ts : List Spanned) (es : List ParseEvent) (next : Descent) :
    Prop where
  pending : d.pending = ts.map .ok ++ next.pending
  log : next.log = es.reverse ++ d.log

variable {d d' d'' : Descent} {us : List Spanned} {es' : List ParseEvent}

theorem Passes.refl (d : Descent) : d.Passes [] [] d := ⟨rfl, rfl⟩

theorem Passes.trans (h : d.Passes ts es d') (h' : d'.Passes us es' d'') :
    d.Passes (ts ++ us) (es ++ es') d'' where
  pending := by rw [h.pending, h'.pending, List.map_append, List.append_assoc]
  log := by rw [h'.log, h.log, List.reverse_append, List.append_assoc]

theorem Passes.record (h : d.Passes ts es d') (event : ParseEvent) :
    d.Passes ts (es ++ [event]) (d'.record event) where
  pending := h.pending
  log := by
    rw [List.reverse_append, List.append_assoc, ← h.log]
    rfl

theorem passes_advance (ht : d.current.token ≠ .finish) (h : d.advance = .ok d') :
    d.Passes [d.current] [.offer d'.current] d' := by
  have ha := d.advances_advance
  rw [h] at ha
  cases ha with
  | next _ hp _ hl => exact ⟨by rw [pending_of_ne_finish ht, hp]; rfl, hl⟩

theorem passes_enter (ht : d.current.token = .opening) (h : d.enter = .ok d') :
    d.Passes [d.current] [.offer d'.current] d' := by
  unfold enter at h
  split at h
  · cases h
  · obtain ⟨hp, hl⟩ := passes_advance (d := { d with depth := d.depth + 1 }) (by simp [ht]) h
    exact ⟨hp, hl⟩

theorem passes_leave (h : d.leave = .ok d') :
    d.current.token = .closing ∧
      d.Passes [d.current] [.offer d'.current, .reduceGroup] d' := by
  obtain ⟨next, he, rfl⟩ := map_eq_ok h
  unfold expect at he
  split at he
  · rename_i hk
    have ht := token_eq_of_kind_eq_closing hk
    obtain ⟨hp, hl⟩ := (passes_advance (by simp [ht]) he).record .reduceGroup
    exact ⟨ht, hp, hl⟩
  · cases he

theorem Passes.exists_eq_cons (h : d.Passes ts es d') (hts : ts ≠ []) :
    ∃ us, ts = d.current :: us := by
  cases ts with
  | nil => exact (hts rfl).elim
  | cons t us =>
    have hp := h.pending
    unfold Descent.pending at hp
    split at hp
    · cases hp
    · exact ⟨us, by rw [Except.ok.inj (List.cons.inj hp).1]⟩

def LogsPhrase (level : Level) (d : Descent) (result : Except Rejection (Expr × Descent)) : Prop :=
  ∀ e next, result = .ok (e, next) → ∃ ts es, d.Passes ts es next ∧ Logs level ts e next.current es

/-- A reader goes on with the log of a phrase in front of it. -/
def LogsMore (level : Level) (d : Descent) (lhs : Expr)
    (result : Except Rejection (Expr × Descent)) : Prop :=
  ∀ ls es, Logs level ls lhs d.current es → ∀ e next, result = .ok (e, next) →
    ∃ rs es', d.Passes rs es' next ∧ Logs level (ls ++ rs) e next.current (es ++ es')

theorem logsMore_pure (level : Level) (d : Descent) (lhs : Expr) :
    d.LogsMore level lhs (.ok (lhs, d)) := by
  rintro ls es hl _ _ ⟨⟩
  exact ⟨[], [], .refl d, by simpa using hl⟩

theorem logsMore_binary {level inner : Level} {op : Operator} {lhs : Expr}
    {reader : Descent → Except Rejection (Expr × Descent)}
    {more : Descent → Expr → Except Rejection (Expr × Descent)}
    (ht : d.current.token = .operator op)
    (rule : ∀ {first next ls rs rhs es es'}, Logs level ls lhs d.current es →
      Logs inner (first :: rs) rhs next es' →
      Logs level (ls ++ d.current :: first :: rs) (.binary op lhs rhs) next
        (es ++ .offer first :: es' ++ [.reduceBinary op]))
    (step : ∀ next, d.advance = .ok next → next.LogsPhrase inner (reader next) ∧
      ∀ rhs behind, reader next = .ok (rhs, behind) →
        (behind.record (.reduceBinary op)).LogsMore level (.binary op lhs rhs)
          (more (behind.record (.reduceBinary op)) (.binary op lhs rhs))) :
    d.LogsMore level lhs (d.advance >>= reader >>= fun (rhs, behind) =>
      more (behind.record (.reduceBinary op)) (.binary op lhs rhs)) := by
  intro ls es hl e last h
  obtain ⟨⟨rhs, behind⟩, hr, hm⟩ := bind_eq_ok h
  obtain ⟨next, ha, hr⟩ := bind_eq_ok hr
  obtain ⟨phrase, more⟩ := step next ha
  obtain ⟨ts, es', hp, hrhs⟩ := phrase rhs behind hr
  obtain ⟨rs, rfl⟩ := hp.exists_eq_cons hrhs.ne_nil
  obtain ⟨us, es'', hp', he⟩ := more rhs behind hr _ _ (rule hl hrhs) e last hm
  have hpasses := ((passes_advance (by simp [ht]) ha).trans hp).record (.reduceBinary op)
  exact ⟨_, _, hpasses.trans hp', by simpa using he⟩

theorem logs_operand (inner : ∀ inside, d.current.token = .opening → d.enter = .ok inside →
    inside.LogsPhrase .sum inside.sum) : d.LogsPhrase .operand d.operand := by
  intro e next h
  rw [operand_eq] at h
  split at h
  · rename_i n ht
    obtain ⟨next', ha, he⟩ := map_eq_ok h
    obtain ⟨rfl, rfl⟩ := Prod.mk.inj he
    exact ⟨_, _, (passes_advance (by simp [ht]) ha).record .reduceLiteral, .literal ht⟩
  · rename_i ht
    obtain ⟨⟨e', last⟩, hb, hm⟩ := bind_eq_ok h
    obtain ⟨inside, he, hs⟩ := bind_eq_ok hb
    obtain ⟨behind, hl, heq⟩ := map_eq_ok hm
    obtain ⟨rfl, rfl⟩ := Prod.mk.inj heq
    obtain ⟨ts, es, hp, hlogs⟩ := inner inside ht he e' last hs
    obtain ⟨us, rfl⟩ := hp.exists_eq_cons hlogs.ne_nil
    obtain ⟨hc, hp'⟩ := passes_leave hl
    exact ⟨_, _, ((passes_enter ht he).trans hp).trans hp', .group ht hlogs hc⟩
  all_goals cases h

/-- Every reader logs the phrase that it reads. -/
theorem readers_log (d : Descent) :
    d.LogsPhrase .sum d.sum ∧ d.LogsPhrase .product d.product ∧ d.LogsPhrase .operand d.operand ∧
      (∀ lhs, d.LogsMore .product lhs (d.moreOperands lhs)) ∧
      ∀ lhs, d.LogsMore .sum lhs (d.moreTerms lhs) := by
  refine @reader_induction (fun d => d.LogsPhrase .sum d.sum)
    (fun d => d.LogsPhrase .product d.product) (fun d => d.LogsPhrase .operand d.operand)
    (fun d lhs => d.LogsMore .sum lhs (d.moreTerms lhs))
    (fun d lhs => d.LogsMore .product lhs (d.moreOperands lhs))
    ?operand ?moreOperands ?product ?moreTerms ?sum d
  case operand => exact fun d inner => logs_operand inner
  case moreOperands =>
    intro d lhs step
    rw [moreOperands_eq]
    split
    · exact logsMore_pure .product d lhs
    · rename_i op ho
      obtain ⟨ht, hop⟩ := token_of_multiplicative? ho
      exact logsMore_binary ht (fun hl hr => .product ht hop hl hr) fun next ha =>
        step op next ho ha
  case product =>
    intro d operand more e last h
    rw [product_eq] at h
    obtain ⟨⟨lhs, next⟩, ho, hm⟩ := bind_eq_ok h
    obtain ⟨ts, es, hp, hl⟩ := operand lhs next ho
    obtain ⟨us, es', hp', he⟩ := more lhs next ho ts es (.operand hl) e last hm
    exact ⟨_, _, hp.trans hp', he⟩
  case moreTerms =>
    intro d lhs step
    rw [moreTerms_eq]
    split
    · exact logsMore_pure .sum d lhs
    · rename_i op ho
      obtain ⟨ht, hop⟩ := token_of_additive? ho
      exact logsMore_binary ht (fun hl hr => .sum ht hop hl hr) fun next ha => step op next ho ha
  case sum =>
    intro d product more e last h
    rw [sum_eq] at h
    obtain ⟨⟨lhs, next⟩, hp, hm⟩ := bind_eq_ok h
    obtain ⟨ts, es, hts, hl⟩ := product lhs next hp
    obtain ⟨us, es', hus, he⟩ := more lhs next hp ts es (.term hl) e last hm
    exact ⟨_, _, hts.trans hus, he⟩

theorem exists_logs_of_complete_eq (hlog : d.log = []) {events : List ParseEvent}
    (h : d.complete = (.ok e, events)) :
    ∃ ts es, d.pending = ts.map .ok ∧ Logs .sum ts e d.cursor.finish es ∧
      events = es ++ [.offer d.cursor.finish, .accept] := by
  unfold complete at h
  split at h
  · cases h
  rename_i e' next hs
  split at h
  · cases h
  rename_i last hf
  obtain ⟨rfl, rfl⟩ : e' = e ∧ (last.record .accept).log.reverse = events := by
    simpa using h
  obtain ⟨hk, -⟩ := keeps_of_sum hs
  obtain ⟨ts, es, hp, hlogs⟩ := (readers_log d).1 e' next hs
  unfold expect at hf
  split at hf
  · rename_i hkind
    have ht := kind_eq_finish_iff.mp hkind
    obtain ⟨hc, hu⟩ := hk.coherent ht
    rw [hk.finish_eq] at hc
    have ha := next.advances_advance
    rw [hf] at ha
    cases ha with
    | next hahead _ _ hl =>
      rw [hu] at hahead
      have hcur : d.cursor.finish = last.current := hk.finish_eq.symm.trans (Except.ok.inj hahead)
      refine ⟨ts, es, ?_, hc ▸ hlogs, ?_⟩
      · rw [hp.pending, pending, if_pos ht, List.append_nil]
      · rw [Descent.record, hl, hp.log, hlog, hcur]
        simp
  · cases hf

end Descent

theorem exists_logs_of_parse_eq_ok {settings : Settings} {source : String}
    (h : parse settings source = .ok e) :
    ∃ ts es, tokens source = .ok ts ∧ Logs .sum ts e (Cursor.start source).finish es ∧
      (parseTraced settings source).trace = .enter .parse ::
        (es ++ [ParseEvent.offer (Cursor.start source).finish, .accept]).map
          (fun event => .event (.parse event)) ++ [.leave .parse] := by
  unfold parse at h
  unfold parseTraced at h ⊢
  rcases Descent.start_eq source settings.limit with
    ⟨error, hs, -⟩ | ⟨d, hs, -, hlog, -, hfin, hp⟩
  · rw [hs] at h
    cases h
  · rw [hs] at h ⊢
    have hcomplete : d.complete = (.ok e, d.complete.2) := Prod.ext h rfl
    obtain ⟨ts, es, hts, hl, hev⟩ := Descent.exists_logs_of_complete_eq hlog hcomplete
    refine ⟨ts, es, tokens_eq_ok_iff.mpr (hp ▸ hts), hfin ▸ hl, ?_⟩
    dsimp only
    rw [hev, hfin, Stage.trace_map]

end Reckon
