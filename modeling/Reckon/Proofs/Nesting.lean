import Mathlib.Data.List.Infix
import Reckon.Proofs.Derivation
import Reckon.Proofs.Locality
import Reckon.Proofs.Spelling

/-! # The nesting limit

Under a limit the machine comes to the end that it has without one, or stops at the first opening
that is one too many.
-/

namespace Reckon

open String (utf8Len)

section Peak

variable {α : Type} {f : List α → Int} {d d' : Int} {xs ys : List α}

/-- The greatest value that a measure takes on the prefixes of a row, and at least zero. -/
def peak (f : List α → Int) (xs : List α) : Nat :=
  (xs.inits.map fun p => (f p).toNat).foldr Nat.max 0

def Within (f : List α → Int) (d : Int) (xs : List α) : Prop := ∀ p, p <+: xs → f p ≤ d

theorem foldr_max_le_iff {ns : List Nat} {n : Nat} : ns.foldr Nat.max 0 ≤ n ↔ ∀ m ∈ ns, m ≤ n := by
  induction ns with
  | nil => simp
  | cons m ns ih => rw [List.foldr_cons, List.forall_mem_cons, ← ih, Nat.max_le]

theorem peak_le_iff {n : Nat} : peak f xs ≤ n ↔ Within f n xs := by
  simp [peak, foldr_max_le_iff, Within]

theorem Within.mono (h : Within f d xs) (hd : d ≤ d') : Within f d' xs :=
  fun p hp => Int.le_trans (h p hp) hd

theorem within_append (hf : ∀ a b, f (a ++ b) = f a + f b) :
    Within f d (xs ++ ys) ↔ Within f d xs ∧ Within f (d - f xs) ys := by
  constructor
  · intro h
    refine ⟨fun p hp => h p (hp.trans (List.prefix_append _ _)), fun p hp => ?_⟩
    have := h (xs ++ p) ((List.prefix_append_right_inj xs).mpr hp)
    rw [hf] at this
    omega
  · rintro ⟨hx, hy⟩ p hp
    rcases List.prefix_or_prefix_of_prefix hp (List.prefix_append xs ys) with hp' | ⟨q, rfl⟩
    · exact hx p hp'
    · have := hy q ((List.prefix_append_right_inj xs).mp hp)
      rw [hf]
      omega

theorem within_nil_iff (h : f [] = 0) : Within f d [] ↔ 0 ≤ d := by
  simp [Within, h]

theorem within_singleton_iff (h : f [] = 0) {x : α} : Within f d [x] ↔ 0 ≤ d ∧ f [x] ≤ d := by
  simp [Within, List.prefix_cons_iff, h]

theorem enclosed_eq (hf : ∀ a b, f (a ++ b) = f a + f b) {o c : α} (ho : f [o] = 1)
    (hc : f [c] = -1) : f (o :: xs ++ [c]) = f xs := by
  rw [hf, ← List.singleton_append, hf, ho, hc]
  omega

theorem Within.nonneg (h : f [] = 0) (hw : Within f d xs) : 0 ≤ d := h ▸ hw [] List.nil_prefix

/-- Between an opening and a closing the measure is one greater. -/
theorem within_enclosed_iff (hf : ∀ a b, f (a ++ b) = f a + f b) {o c : α} (ho : f [o] = 1)
    (hc : f [c] = -1) (h : f xs = 0) : Within f d (o :: xs ++ [c]) ↔ Within f (d - 1) xs := by
  have hnil : f [] = 0 := by
    have := hf [] []
    rw [List.append_nil] at this
    omega
  rw [within_append hf, ← List.singleton_append, within_append hf, hf, within_singleton_iff hnil,
    within_singleton_iff hnil, ho, hc, h]
  constructor
  · rintro ⟨⟨-, hw⟩, -⟩
    exact hw
  · intro hw
    have := hw.nonneg hnil
    exact ⟨⟨by omega, hw⟩, by omega⟩

end Peak

namespace Pushdown

variable {limit : UInt64} {finish : Spanned} {p next : Pushdown} {rs : List Reading}
  {ts : List Spanned} {result : Except ParseError Expr}

/-- A run without a limit: the tokens that the machine reads, and what it comes to. -/
inductive Runs (finish : Spanned) :
    Pushdown → List Reading → List Spanned → Except ParseError Expr → Prop where

  | accepted {p : Pushdown} {e : Expr} : p.result? = some e → Runs finish p [] [] (.ok e)

  | unfinished {p : Pushdown} : p.result? = none →
      Runs finish p [] [] (.error (p.refusal finish))

  | fault {p : Pushdown} {error : ScanError} {rest : List Reading} :
      Runs finish p (.error error :: rest) [] (.error (.scan error))

  | refused {p : Pushdown} {s : Spanned} {rest : List Reading} : p.shift s.token = none →
      Runs finish p (.ok s :: rest) [] (.error (p.refusal s))

  | next {p next : Pushdown} {s : Spanned} {rest : List Reading} {ts : List Spanned}
      {result : Except ParseError Expr} : p.shift s.token = some next →
      Runs finish next rest ts result → Runs finish p (.ok s :: rest) (s :: ts) result

theorem exists_runs (finish : Spanned) (p : Pushdown) (rs : List Reading) :
    ∃ ts result, Runs finish p rs ts result := by
  induction rs generalizing p with
  | nil =>
    cases hr : p.result? with
    | none => exact ⟨_, _, .unfinished hr⟩
    | some e => exact ⟨_, _, .accepted hr⟩
  | cons r rs ih =>
    cases r with
    | error error => exact ⟨_, _, .fault⟩
    | ok s =>
      cases hs : p.shift s.token with
      | none => exact ⟨_, _, .refused hs⟩
      | some next =>
        obtain ⟨ts, result, h⟩ := ih next
        exact ⟨_, _, .next hs h⟩

theorem within_cons_iff {s : Spanned} (h : p.shift s.token = some next)
    (hp : p.groups ≤ limit.toNat) :
    Within depth (limit.toNat - p.groups) ((s :: ts).map Spanned.token) ↔
      next.groups ≤ limit.toNat ∧
        Within depth (limit.toNat - next.groups) (ts.map Spanned.token) := by
  have hg := groups_of_shift h
  have hb : (limit.toNat : Int) - p.groups - depth [s.token] = limit.toNat - next.groups := by
    omega
  rw [List.map_cons, ← List.singleton_append, within_append depth_append, hb,
    within_singleton_iff rfl]
  refine and_congr_left fun _ => ⟨fun hw => ?_, fun hn => ⟨?_, ?_⟩⟩ <;> omega

/-- Within the limit, the limit has no part in a run. -/
theorem Runs.outcome_eq (h : Runs finish p rs ts result) (hp : p.groups ≤ limit.toNat)
    (hw : Within depth (limit.toNat - p.groups) (ts.map Spanned.token)) :
    p.outcome limit finish rs = result := by
  induction h with
  | accepted hr | unfinished hr =>
    rw [outcome, hr]
    rfl
  | fault => rfl
  | refused hs =>
    rw [outcome, step_eq_refusal hs]
    rfl
  | next hs _ ih =>
    obtain ⟨hn, hw⟩ := (within_cons_iff hs hp).mp hw
    rw [outcome, (step_eq_ok_iff hp).mpr ⟨hs, hn⟩]
    exact ih hn hw

theorem step_eq_tooDeep {s : Spanned} (hs : p.shift s.token = some next)
    (hp : p.groups ≤ limit.toNat) (hn : limit.toNat < next.groups) :
    s.token = .opening ∧ p.groups = limit.toNat ∧
      p.step limit s = .error (.tooDeep limit s.start) := by
  have hg := groups_of_shift hs
  by_cases ho : s.token = .opening
  · rw [ho, depth_opening] at hg
    have hl : limit.toNat = p.groups := by omega
    refine ⟨ho, hl.symm, ?_⟩
    cases p with
    | wanted inner outer =>
      exact (step_opening ho limit inner outer).trans (if_pos (Nat.le_of_eq hl))
    | complete sum? e outer =>
      rw [ho] at hs
      cases hs
  · have := depth_singleton_le ho
    omega

end Pushdown

/-- Among some tokens the first opening for which a limit leaves no room. -/
def IsExcess (limit : Int) (ts : List Spanned) (s : Spanned) : Prop :=
  ∃ us vs, ts = us ++ s :: vs ∧ Within depth limit (us.map Spanned.token) ∧
    depth (us.map Spanned.token) = limit ∧ s.token = .opening

namespace Pushdown

theorem Runs.outcome_eq_tooDeep (h : Runs finish p rs ts result) (hp : p.groups ≤ limit.toNat)
    (hw : ¬ Within depth (limit.toNat - p.groups) (ts.map Spanned.token)) :
    ∃ s, IsExcess (limit.toNat - p.groups) ts s ∧
      p.outcome limit finish rs = .error (.tooDeep limit s.start) := by
  induction h with
  | accepted | unfinished | fault | refused => exact (hw ((within_nil_iff rfl).mpr (by omega))).elim
  | @next p next s rest ts result hs _ ih =>
    rw [within_cons_iff hs hp] at hw
    rcases Nat.lt_or_ge limit.toNat next.groups with hn | hn
    · obtain ⟨ho, hl, he⟩ := step_eq_tooDeep hs hp hn
      refine ⟨s, ⟨[], ts, rfl, (within_nil_iff rfl).mpr (by omega), ?_, ho⟩, ?_⟩
      · rw [List.map_nil, depth_nil]
        omega
      · rw [outcome, he]
        rfl
    · obtain ⟨t, ⟨us, vs, rfl, hus, hd, ho⟩, he⟩ := ih hn fun h => hw ⟨hn, h⟩
      have hg := groups_of_shift hs
      refine ⟨t, ⟨s :: us, vs, rfl, (within_cons_iff hs hp).mpr ⟨hn, hus⟩, ?_, ho⟩, ?_⟩
      · rw [List.map_cons, depth_cons]
        omega
      · rw [outcome, (step_eq_ok_iff hp).mpr ⟨hs, hn⟩]
        exact he

end Pushdown

def handed (source : String) : List Spanned :=
  (Cursor.start source).drain.1.filterMap Except.toOption

/-- The tokens that a result depends on: those in front of the offset of an error, and all of them
if there is no error or it is the end of the input that does not fit. -/
def tokensBefore (source : String) : Except ParseError Expr → List Spanned
  | .ok _ => handed source
  | .error (.mismatch _ .finish _) => handed source
  | .error error => (handed source).filter (·.start < error.position)

def nestingBefore (source : String) (result : Except ParseError Expr) : Nat :=
  peak depth ((tokensBefore source result).map Spanned.token)

theorem handed_eq (source : String) :
    handed source = (readings 0 source.toList).filterMap Except.toOption := by
  rw [handed, Cursor.drain_eq, Cursor.upcoming_start]

theorem filterMap_toOption_map_ok (ts : List Spanned) :
    (ts.map (Except.ok (ε := ScanError))).filterMap Except.toOption = ts := by
  induction ts with
  | nil => rfl
  | cons t ts ih => exact congrArg (t :: ·) ih

def openings (rs : List Reading) : Nat :=
  ((rs.filterMap Except.toOption).map Spanned.token).count .opening

theorem openings_append (rs rs' : List Reading) :
    openings (rs ++ rs') = openings rs + openings rs' := by
  simp [openings]

theorem openings_lexeme_le {position : Nat} {x : List Char} {r : Reading}
    (h : Lexes position x r) : openings [r] ≤ x.count '(' := by
  cases h with
  | @symbol c token hs =>
    cases token with
    | opening =>
      obtain rfl : '(' = c := Option.some.inj (ofSymbol?_eq_some_iff.mp hs)
      exact Nat.le_refl 1
    | _ => exact Nat.zero_le _
  | _ => exact Nat.zero_le _

theorem openings_readings_le (position : Nat) (text : List Char) :
    openings (readings position text) ≤ text.count '(' := by
  induction position, text using reading_induction with
  | nil => simp [openings]
  | blank position c text hb ih =>
    rw [readings_blank hb]
    exact ih.trans List.count_le_count_cons
  | lexeme position x text r hx ha ih =>
    have hr := openings_lexeme_le hx
    rw [readings_lexeme hx ha, List.count_append]
    cases r with
    | ok s =>
      have hj := openings_append [.ok s] (readings (position + utf8Len x) text)
      change openings ([.ok s] ++ _) ≤ _
      omega
    | error error =>
      change openings [.error error] ≤ _
      omega

/-- The tokens of a source that are kept, if those up to some place are and none behind it. -/
theorem filter_handed_split {source : String} {ts : List Spanned} {rest : List Reading}
    {keep : Spanned → Bool} (h : readings 0 source.toList = ts.map .ok ++ rest)
    (hts : ∀ s ∈ ts, keep s = true) (hrest : ∀ s, .ok s ∈ rest → keep s = false) :
    (handed source).filter keep = ts := by
  have hdrop : (rest.filterMap Except.toOption).filter keep = [] := by
    rw [List.filter_eq_nil_iff]
    intro s hs
    obtain ⟨r, hr, hrs⟩ := List.mem_filterMap.mp hs
    cases r with
    | error error => cases hrs
    | ok t =>
      obtain rfl := Option.some.inj hrs
      exact Bool.not_eq_true _ ▸ hrest t hr
  rw [handed_eq, h, List.filterMap_append, List.filter_append, hdrop, filterMap_toOption_map_ok,
    List.filter_eq_self.mpr hts, List.append_nil]

theorem filter_handed {source : String} {ts : List Spanned} {r : Reading} {rest : List Reading}
    (h : readings 0 source.toList = ts.map .ok ++ r :: rest) :
    (handed source).filter (·.start < r.position) = ts := by
  obtain ⟨hbefore, hbehind⟩ := readings_ordered h
  refine filter_handed_split h (fun s hs => decide_eq_true (hbefore s hs)) fun s hs => ?_
  rcases List.mem_cons.mp hs with rfl | hs
  · exact decide_eq_false (Nat.lt_irrefl _)
  · exact decide_eq_false (Nat.not_lt.mpr (hbehind _ hs).le)

namespace Pushdown

/-- A run without a limit ends with the readings, or at a reading that cannot follow. -/
theorem Runs.stops {finish : Spanned} {p : Pushdown} {rs : List Reading} {ts : List Spanned}
    {result : Except ParseError Expr} (h : Runs finish p rs ts result) :
    (rs = ts.map .ok ∧
      ((∃ e, result = .ok e) ∨ ∃ q : Pushdown, result = .error (q.refusal finish))) ∨
    ∃ r rest, rs = ts.map .ok ++ r :: rest ∧
      ((∃ (q : Pushdown) (s : Spanned), r = .ok s ∧ result = .error (q.refusal s)) ∨
        ∃ error, r = .error error ∧ result = .error (.scan error)) := by
  induction h with
  | accepted => exact .inl ⟨rfl, .inl ⟨_, rfl⟩⟩
  | unfinished => exact .inl ⟨rfl, .inr ⟨_, rfl⟩⟩
  | fault => exact .inr ⟨_, _, rfl, .inr ⟨_, rfl, rfl⟩⟩
  | refused => exact .inr ⟨_, _, rfl, .inl ⟨_, _, rfl, rfl⟩⟩
  | next _ _ ih =>
    rcases ih with ⟨rfl, h⟩ | ⟨r, rest, rfl, h⟩
    · exact .inl ⟨rfl, h⟩
    · exact .inr ⟨r, rest, rfl, h⟩

theorem Runs.ne_tooDeep {finish : Spanned} {p : Pushdown} {rs : List Reading} {ts : List Spanned}
    {result : Except ParseError Expr} (h : Runs finish p rs ts result) (limit : UInt64)
    (position : Nat) : result ≠ .error (.tooDeep limit position) := by
  rcases h.stops with ⟨-, ⟨e, rfl⟩ | ⟨q, rfl⟩⟩ |
    ⟨r, rest, -, ⟨q, s, -, rfl⟩ | ⟨error, -, rfl⟩⟩ <;> simp [refusal]

end Pushdown

theorem tokensBefore_mismatch {found : Token} (h : found ≠ .finish) (source : String)
    (expected : List Kind) (position : Nat) :
    tokensBefore source (.error (.mismatch expected found position)) =
      (handed source).filter (·.start < position) := by
  cases found with
  | finish => exact (h rfl).elim
  | _ => rfl

theorem Pushdown.Runs.tokensBefore_eq {source : String} {ts : List Spanned}
    {result : Except ParseError Expr}
    (h : Pushdown.start.Runs (Cursor.start source).finish (readings 0 source.toList) ts result) :
    tokensBefore source result = ts := by
  rcases h.stops with ⟨hts, hr⟩ | ⟨r, rest, hts, hr⟩
  · have hall : handed source = ts := by
      rw [handed_eq, hts, filterMap_toOption_map_ok]
    rcases hr with ⟨e, rfl⟩ | ⟨q, rfl⟩
    · exact hall
    · exact hall
  · rw [← filter_handed hts]
    rcases hr with ⟨q, s, rfl, rfl⟩ | ⟨error, rfl, rfl⟩
    · have hs : s.token ≠ .finish := token_ne_finish_of_mem_readings (by rw [hts]; simp)
      exact tokensBefore_mismatch hs source _ _
    · rfl

theorem peak_depth_le (ts : List Token) : peak depth ts ≤ ts.count .opening := by
  rw [peak_le_iff]
  intro q hq
  have := hq.sublist.count_le Token.opening
  rw [depth]
  omega

theorem run_eq (settings : Settings) (source : String) :
    run settings source = match parse settings source with
      | .error error => .error (.parse error)
      | .ok e => e.value.mapError .eval := by
  unfold run runTraced parse
  dsimp only
  cases (parseTraced settings source).result <;> rfl

/-- The result that a source has without a limit, and how limits bear on it. -/
structure HasThreshold (source : String) (result : Except ParseError Expr) : Prop where
  within : ∀ limit : UInt64, nestingBefore source result ≤ limit.toNat →
    parse ⟨limit⟩ source = result
  beyond : ∀ limit : UInt64, limit.toNat < nestingBefore source result →
    ∃ s, IsExcess limit.toNat (tokensBefore source result) s ∧
      parse ⟨limit⟩ source = .error (.tooDeep limit s.start)
  ne_tooDeep : ∀ limit position, result ≠ .error (.tooDeep limit position)
  nesting_le : nestingBefore source result ≤ source.toList.count '('

theorem exists_hasThreshold (source : String) : ∃ result, HasThreshold source result := by
  obtain ⟨ts, result, h⟩ :=
    Pushdown.exists_runs (Cursor.start source).finish Pushdown.start (readings 0 source.toList)
  have hp (limit : UInt64) : Pushdown.start.groups ≤ limit.toNat := Nat.zero_le _
  have hb (limit : UInt64) : Within depth (limit.toNat - Pushdown.start.groups)
      (ts.map Spanned.token) ↔ nestingBefore source result ≤ limit.toNat := by
    rw [nestingBefore, h.tokensBefore_eq, peak_le_iff]
    exact Iff.rfl
  refine ⟨result, ?within, ?beyond, h.ne_tooDeep, ?nesting_le⟩
  case within =>
    intro limit hl
    rw [parse_eq_outcome]
    exact h.outcome_eq (hp limit) ((hb limit).mpr hl)
  case beyond =>
    intro limit hl
    rw [parse_eq_outcome, h.tokensBefore_eq]
    exact h.outcome_eq_tooDeep (hp limit) (mt (hb limit).mp (Nat.not_le.mpr hl))
  case nesting_le =>
    have hread : ∃ rest, readings 0 source.toList = ts.map .ok ++ rest := by
      rcases h.stops with ⟨hts, -⟩ | ⟨r, rest, hts, -⟩
      · exact ⟨[], by rw [hts, List.append_nil]⟩
      · exact ⟨r :: rest, hts⟩
    obtain ⟨rest, hrest⟩ := hread
    have ho := openings_readings_le 0 source.toList
    rw [hrest, openings_append, openings, filterMap_toOption_map_ok] at ho
    rw [nestingBefore, h.tokensBefore_eq]
    exact (peak_depth_le _).trans ((Nat.le_add_right _ _).trans ho)

/-- A limit with room for every parenthesis gives the result that a source has without a limit. The
nesting in front of that result is the threshold: the limits from there on change nothing, and those
below stop at the first opening that is one too many. -/
theorem parse_limit_threshold (source : String) :
    (∀ limit : UInt64, source.toList.count '(' ≤ limit.toNat →
      (∀ l position, parse ⟨limit⟩ source ≠ .error (.tooDeep l position)) ∧
      ∀ l : UInt64,
        (source.toList.count '(' ≤ l.toNat → parse ⟨l⟩ source = parse ⟨limit⟩ source) ∧
        (nestingBefore source (parse ⟨limit⟩ source) ≤ l.toNat →
          parse ⟨l⟩ source = parse ⟨limit⟩ source ∧ run ⟨l⟩ source = run ⟨limit⟩ source) ∧
        (l.toNat < nestingBefore source (parse ⟨limit⟩ source) →
          ∃ s, IsExcess l.toNat (tokensBefore source (parse ⟨limit⟩ source)) s ∧
            parse ⟨l⟩ source = .error (.tooDeep l s.start) ∧
            run ⟨l⟩ source = .error (.parse (.tooDeep l s.start)))) ∧
    ∀ l l' : UInt64, l ≤ l' → (∀ position, parse ⟨l⟩ source ≠ .error (.tooDeep l position)) →
      parse ⟨l'⟩ source = parse ⟨l⟩ source ∧ run ⟨l'⟩ source = run ⟨l⟩ source := by
  obtain ⟨result, h⟩ := exists_hasThreshold source
  have hall {limit : UInt64} (hl : source.toList.count '(' ≤ limit.toNat) :
      parse ⟨limit⟩ source = result := h.within limit (h.nesting_le.trans hl)
  refine ⟨fun limit hlimit => ?_, fun l l' hle hn => ?_⟩
  · rw [hall hlimit]
    refine ⟨h.ne_tooDeep, fun l => ⟨fun hl => hall hl, fun hl => ?_, fun hl => ?_⟩⟩
    · have hp := h.within l hl
      exact ⟨hp, by rw [run_eq, run_eq, hp, hall hlimit]⟩
    · obtain ⟨s, hs, hp⟩ := h.beyond l hl
      exact ⟨s, hs, hp, by rw [run_eq, hp]⟩
  · have hl : nestingBefore source result ≤ l.toNat := by
      by_contra hlt
      obtain ⟨s, -, hp⟩ := h.beyond l (Nat.lt_of_not_le hlt)
      exact hn s.start hp
    have hp := h.within l hl
    have hp' := h.within l' (hl.trans (UInt64.le_iff_toNat_le.mp hle))
    exact ⟨hp'.trans hp.symm, by rw [run_eq, run_eq, hp, hp']⟩

theorem parse_limit_threshold_two :
    "((1)+2)".toList.count '(' ≤ (2 : UInt64).toNat ∧
      nestingBefore "((1)+2)" (parse ⟨2⟩ "((1)+2)") ≤ (3 : UInt64).toNat ∧
      run ⟨3⟩ "((1)+2)" = run ⟨2⟩ "((1)+2)" ∧
      (1 : UInt64).toNat < nestingBefore "((1)+2)" (parse ⟨2⟩ "((1)+2)") ∧
      (∃ s, IsExcess (1 : UInt64).toNat (tokensBefore "((1)+2)" (parse ⟨2⟩ "((1)+2)")) s ∧
        parse ⟨1⟩ "((1)+2)" = .error (.tooDeep 1 s.start)) ∧
      (∀ position, parse ⟨2⟩ "((1)+2)" ≠ .error (.tooDeep 2 position)) ∧
      parse ⟨4⟩ "((1)+2)" = parse ⟨2⟩ "((1)+2)" := by
  have hcount : "((1)+2)".toList.count '(' ≤ (2 : UInt64).toNat := by decide +kernel
  have hbelow : nestingBefore "((1)+2)" (parse ⟨2⟩ "((1)+2)") ≤ (3 : UInt64).toNat := by
    decide +kernel
  have habove : (1 : UInt64).toNat < nestingBefore "((1)+2)" (parse ⟨2⟩ "((1)+2)") := by
    decide +kernel
  obtain ⟨hall, hmono⟩ := parse_limit_threshold "((1)+2)"
  obtain ⟨hn, hl⟩ := hall 2 hcount
  obtain ⟨s, hs, hp, -⟩ := (hl 1).2.2 habove
  exact ⟨hcount, hbelow, ((hl 3).2.1 hbelow).2, habove, ⟨s, hs, hp⟩, hn 2,
    (hmono 2 4 (by decide) (hn 2)).1⟩

end Reckon
