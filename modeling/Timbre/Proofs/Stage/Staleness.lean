import Timbre.Proofs.Stage.Rewiring

/-! # Stages that are up to date

A stage is up to date if a new one with the same parameters, which accepts the same input format and
is prepared, is like it. That a stage is prepared does not say so: a parameter can be set, or an
input format refused, with the stage prepared before or after. It does say so as long as nothing of
this has happened since a format was accepted. Main statement: `upToDate_of_settled`.
-/
namespace Timbre.Stage

variable {k : Kernel} {s t : Stage k}

/-- What the stage holds is what its parameters and its input format make of a new one. -/
def UpToDate (s : Stage k) : Prop :=
  ∃ count workers warnings t t',
    s.renewed.accept ⟨k.input, s.input⟩ count = ⟨t, .ok s.count, warnings⟩ ∧
      t.prepare workers = .ok t' ∧ Like s t'

/-- Whether the parameters and the input format are those that were last accepted together, after a
change. -/
def settles (s : Stage k) (settled : Bool) : Change → Bool
  | .setParameter name value => settled && !(s.setParameter name value).isOk
  | .accept f count =>
    (s.accept f count).answer.isOk || (settled && !(s.takeInput f).isOk)
  | .prepare _ => settled

def settled (s : Stage k) (before : Bool) : List Change → Bool
  | [] => before
  | c :: cs => (s.change c).settled (s.settles before c) cs

/-- The shape and the output format are those of the parameters and the input format, and the plan
of a prepared stage was made from them. -/
structure Wired (s : Stage k) : Prop where
  accepted : ∃ count warnings, s.renewed.accept ⟨k.input, s.input⟩ count =
    ⟨{ s with plan := k.plan, prepared := false }, .ok s.count, warnings⟩
  planned : s.prepared = true → ∃ workers plan,
    Stage.prepare { s with plan := plan, prepared := false } workers = .ok s

theorem Wired.upToDate (hk : k.Forgetful) (h : s.Wired) (hprepared : s.prepared = true) :
    s.UpToDate := by
  obtain ⟨count, warnings, haccept⟩ := h.accepted
  obtain ⟨workers, plan, hprepare⟩ := h.planned hprepared
  obtain ⟨t', ht', hlike⟩ := exists_prepare_like hk hprepare k.plan
  exact ⟨count, workers, warnings, _, t', haccept, ht', hlike⟩

section Change

variable {f : AnyFormat} {count n workers : Nat} {warnings : List Warning}

theorem wired_of_accept (hk : k.Forgetful) (h : s.accept f count = ⟨t, .ok n, warnings⟩) :
    t.Wired := by
  have hsettings := s.settings_accept f count
  have haccept := accept_renewed hk h
  rw [h] at hsettings
  obtain ⟨_, _, _, -, -, -, rfl⟩ := accept_eq_ok h
  rw [renewed_eq_of_settings hsettings.symm] at haccept
  exact ⟨⟨count, warnings, haccept⟩, nofun⟩

theorem Wired.prepare (h : s.Wired) (hprepare : s.prepare workers = .ok t) : t.Wired := by
  obtain ⟨count, warnings, haccept⟩ := h.accepted
  have hplanned := hprepare
  obtain ⟨plan, -, rfl⟩ := prepare_eq_ok hprepare
  exact ⟨⟨count, warnings, haccept⟩, fun _ => ⟨workers, s.plan, hplanned⟩⟩

theorem accept_of_takeInput_eq_error {e : Error} (h : s.takeInput f = .error e) :
    s.accept f count = ⟨s, .error e, []⟩ := by
  unfold accept
  rw [h]

/-- One change keeps a stage wired for as long as it is settled. -/
theorem wired_change (hk : k.Forgetful) {before : Bool} (h : before = true → s.Wired)
    (c : Change) (hsettles : s.settles before c = true) : (s.change c).Wired := by
  cases c with
  | setParameter name value =>
    rw [settles, Bool.and_eq_true] at hsettles
    dsimp only [change]
    cases hset : s.setParameter name value with
    | error e => exact h hsettles.1
    | ok t => simp [hset, Except.isOk, Except.toBool] at hsettles
  | accept f count =>
    rw [settles, Bool.or_eq_true, Bool.and_eq_true] at hsettles
    dsimp only [change]
    cases haccept : s.accept f count with
    | mk t answer warnings =>
      cases answer with
      | ok n => exact wired_of_accept hk haccept
      | error e =>
        rw [haccept] at hsettles
        obtain ⟨hbefore, hinput⟩ := hsettles.resolve_left Bool.false_ne_true
        cases htake : s.takeInput f with
        | ok input => simp [htake, Except.isOk, Except.toBool] at hinput
        | error e' =>
          rw [accept_of_takeInput_eq_error htake] at haccept
          cases haccept
          exact h hbefore
  | prepare workers =>
    dsimp only [change]
    cases hprepare : s.prepare workers with
    | error e => exact h hsettles
    | ok t => exact (h hsettles).prepare hprepare

theorem wired_of_settled (hk : k.Forgetful) {before : Bool} (h : before = true → s.Wired)
    (changes : List Change) (hsettled : s.settled before changes = true) :
    (s.after (changes.map .change)).Wired := by
  induction changes generalizing s before with
  | nil => exact h hsettled
  | cons c changes ih => exact ih (wired_change hk h c) hsettled

end Change

/-- A prepared stage is up to date if nothing was set or refused since it has accepted its input
format, whatever it has seen before. -/
theorem upToDate_of_settled (hk : k ∈ builtinKernels) (changes : List Change)
    (hsettled : (new k).settled false changes = true)
    (hprepared : ((new k).after (changes.map .change)).prepared = true) :
    ((new k).after (changes.map .change)).UpToDate := by
  have hforgetful := Kernel.forgetful_of_mem_builtin hk
  have hnew : false = true → (new k).Wired := fun h => absurd h Bool.false_ne_true
  exact (wired_of_settled hforgetful hnew changes hsettled).upToDate hforgetful hprepared

/-- Depths are laid over arrays of four; a depth that is too large and a format of another kind are
refused before the stage is prepared. -/
def laidOnce : List Change :=
  [.setParameter "tree" "1 1", .accept ⟨Signal, telephone 4⟩ 1, .setParameter "tree" "40",
    .accept ⟨.array .int16, ⟨(4 : Nat), some narrowband⟩⟩ 1, .prepare 1]

theorem upToDate_of_laidOnce : (new Subbands.kernel).settled false laidOnce = true ∧
    ((new Subbands.kernel).after (laidOnce.map .change)).prepared = true ∧
      ((new Subbands.kernel).after (laidOnce.map .change)).UpToDate :=
  ⟨rfl, rfl, upToDate_of_settled (by simp [builtinKernels]) laidOnce rfl rfl⟩

def resetLater : Stage Subbands.kernel :=
  (new Subbands.kernel).after
    [.change (.setParameter "tree" "1 1"), .change (.accept ⟨Signal, telephone 4⟩ 1),
      .change (.prepare 1), .change (.setParameter "tree" "2 2 1")]

def preparedForRefused : Stage Subbands.kernel :=
  (new Subbands.kernel).after
    [.change (.setParameter "tree" "1 1"), .change (.accept ⟨Signal, telephone 4⟩ 1),
      .change (.accept ⟨Signal, telephone 5⟩ 1), .change (.prepare 1)]

/-- Two stages that are prepared and execute, though what they hold is out of date. -/
theorem not_upToDate_of_prepared :
    (resetLater.prepared = true ∧
      (resetLater.execute ⟨Signal, .fresh (telephone 4) 1⟩
        ⟨_, resetLater.freshOutputs⟩).isOk = true ∧
      ¬ resetLater.UpToDate) ∧
    preparedForRefused.prepared = true ∧
      (preparedForRefused.execute ⟨Signal, .fresh (telephone 5) 1⟩
        ⟨_, preparedForRefused.freshOutputs⟩).isOk = true ∧
      ¬ preparedForRefused.UpToDate := by
  refine ⟨⟨rfl, rfl, ?_⟩, rfl, rfl, ?_⟩
  · rintro ⟨count, workers, warnings, t, t', haccept, hprepare, hlike⟩
    have houtput : t.output = telephone 3 := by
      obtain ⟨input, known, output, hinput, hknown, hanswer, rfl⟩ := accept_eq_ok haccept
      cases hinput
      cases hanswer
      rfl
    obtain ⟨plan, -, rfl⟩ := prepare_eq_ok hprepare
    have hsize := congrArg Format.size (houtput.symm.trans hlike.same.2.2.1)
    exact absurd hsize (by decide)
  · rintro ⟨count, workers, warnings, t, t', haccept, hprepare, hlike⟩
    have hrefused : false = true := congrArg (·.answer.isOk) haccept
    exact Bool.false_ne_true hrefused

end Timbre.Stage
