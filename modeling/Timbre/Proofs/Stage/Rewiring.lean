import Timbre.Proofs.Kernel.Forgetting

/-! # Wiring a stage once more

Whatever calls a stage has seen, failed ones included, once it accepts a format of its own input
kind and is prepared it is like a stage that was just created with the same parameters and has seen
nothing but these two calls. The two have the same formats and the same number of outputs, and they
go on to answer the same, call after call: the one thing that may be left of the past is a plan that
work does not look at. Main statement: `answers_of_rewired`.
-/
namespace Timbre.Stage

variable {k : Kernel} {s s' t : Stage k}

/-- A call that gets a stage ready. -/
inductive Change
  | setParameter (name value : String)
  | accept (format : AnyFormat) (count : Nat)
  | prepare (workers : Nat)

inductive Call
  | change (c : Change)
  | execute (inputs outputs : AnyBuffers)

namespace Call

def setsParameter : Call → Bool
  | .change (.setParameter _ _) => true
  | _ => false

end Call

def change (s : Stage k) : Change → Stage k
  | .setParameter name value => (s.setParameter name value).toOption.getD s
  | .accept format count => (s.accept format count).state
  | .prepare workers => (s.prepare workers).toOption.getD s

def call (s : Stage k) : Call → Stage k
  | .change c => s.change c
  | .execute inputs outputs => ((s.execute inputs outputs).toOption.map (·.stage)).getD s

def after (s : Stage k) (calls : List Call) : Stage k := calls.foldl call s

def renewed (s : Stage k) : Stage k := { Stage.new k with settings := s.settings }

section Settings

theorem settings_accept (s : Stage k) (f : AnyFormat) (count : Nat) :
    (s.accept f count).state.settings = s.settings := by
  unfold accept
  split
  · rfl
  · dsimp only
    split
    · rfl
    · split <;> rfl

theorem settings_prepare (s : Stage k) (workers : Nat) :
    ((s.prepare workers).toOption.getD s).settings = s.settings := by
  unfold prepare
  split <;> rfl

theorem settings_execute (s : Stage k) (inputs outputs : AnyBuffers) :
    (s.call (.execute inputs outputs)).settings = s.settings := by
  unfold call execute
  dsimp only
  split
  · rfl
  · split
    · rfl
    · split
      · rfl
      · split <;> rfl

theorem renewed_setParameter (s : Stage k) (name value : String) :
    (s.change (.setParameter name value)).renewed =
      s.renewed.change (.setParameter name value) := by
  dsimp only [change, setParameter, renewed]
  split <;> rfl

theorem renewed_eq_of_settings (h : s.settings = t.settings) : s.renewed = t.renewed := by
  rw [renewed, renewed, h]

theorem renewed_call (s : Stage k) (c : Call) :
    (s.call c).renewed = if c.setsParameter then s.renewed.call c else s.renewed := by
  cases c with
  | execute inputs outputs => exact renewed_eq_of_settings (s.settings_execute inputs outputs)
  | change c =>
    cases c with
    | setParameter name value => exact s.renewed_setParameter name value
    | accept f count => exact renewed_eq_of_settings (s.settings_accept f count)
    | prepare workers => exact renewed_eq_of_settings (s.settings_prepare workers)

theorem renewed_after (s : Stage k) (calls : List Call) :
    (s.after calls).renewed = s.renewed.after (calls.filter Call.setsParameter) := by
  induction calls generalizing s with
  | nil => rfl
  | cons c calls ih =>
    have hcall := s.renewed_call c
    rw [after, List.foldl_cons, ← after, ih, hcall, List.filter_cons]
    split <;> rfl

end Settings

/-- Stages that differ in nothing but a plan that work does not look at. -/
structure Like (s t : Stage k) : Prop where
  eq_with : t = { s with plan := t.plan }
  plan_eq : t.plan = s.plan ∨ k.SparesPlan s.settings

theorem Like.eq_or (h : Like s t) :
    t = s ∨ k.SparesPlan s.settings ∧ ∃ plan, t = { s with plan := plan } := by
  obtain ⟨heq, hplan | hspares⟩ := h
  · rw [hplan] at heq
    exact .inl heq
  · exact .inr ⟨hspares, _, heq⟩

theorem Like.same (h : Like s t) :
    t.settings = s.settings ∧ t.input = s.input ∧ t.output = s.output ∧ t.count = s.count := by
  rw [h.eq_with]
  exact ⟨rfl, rfl, rfl, rfl⟩

def Execution.written (x : Execution k) : Buffers k.output × List Warning := (x.outputs, x.warnings)

def answers (s : Stage k) : List (AnyBuffers × AnyBuffers) →
    List (Except Error (Buffers k.output × List Warning))
  | [] => []
  | b :: uses =>
    (s.execute b.1 b.2).map Execution.written :: (s.call (.execute b.1 b.2)).answers uses

theorem execute_of_sparesPlan (h : k.SparesPlan s.settings) (plan : k.Plan)
    (inputs outputs : AnyBuffers) : Stage.execute { s with plan := plan } inputs outputs =
      (s.execute inputs outputs).map
        fun x => { x with stage := { x.stage with plan := plan } } := by
  have htake : Stage.takeElements { s with plan := plan } inputs = s.takeElements inputs := rfl
  unfold execute
  rw [htake]
  dsimp only
  split
  · rfl
  · cases s.takeElements inputs with
    | error e => rfl
    | ok ins =>
      dsimp only
      cases outputs.as? k.output with
      | none => rfl
      | some outs =>
        dsimp only
        rw [h s plan ins.elements outs.elements rfl]
        cases s.work ins.elements outs.elements <;> rfl

theorem Like.execute (h : Like s t) (inputs outputs : AnyBuffers) :
    (t.execute inputs outputs).map Execution.written =
        (s.execute inputs outputs).map Execution.written ∧
      Like (s.call (.execute inputs outputs)) (t.call (.execute inputs outputs)) := by
  rcases h.eq_or with rfl | ⟨hspares, plan, rfl⟩
  · exact ⟨rfl, rfl, .inl rfl⟩
  · have hspares' : k.SparesPlan (s.call (.execute inputs outputs)).settings :=
      (s.settings_execute inputs outputs).symm ▸ hspares
    have hexecute := execute_of_sparesPlan hspares plan inputs outputs
    dsimp only [call] at hspares' ⊢
    rw [hexecute]
    cases hx : s.execute inputs outputs <;> exact ⟨rfl, rfl, .inr (hx ▸ hspares')⟩

theorem Like.exists_execute (h : Like s t) {inputs outputs : AnyBuffers} {x : Execution k}
    (hx : t.execute inputs outputs = .ok x) :
    ∃ y, s.execute inputs outputs = .ok y ∧ y.written = x.written := by
  have hwritten := (h.execute inputs outputs).1
  rw [hx] at hwritten
  exact map_eq_ok_iff.1 hwritten.symm

theorem Like.answers_eq (h : Like s t) (uses : List (AnyBuffers × AnyBuffers)) :
    t.answers uses = s.answers uses := by
  induction uses generalizing s t with
  | nil => rfl
  | cons b uses ih =>
    obtain ⟨hwritten, hlike⟩ := h.execute b.1 b.2
    rw [answers, answers, hwritten, ih hlike]

section Accept

variable {f : AnyFormat} {count n : Nat} {warnings : List Warning}

theorem takeInput_mk (s : Stage k) (f : Format k.input) : s.takeInput ⟨k.input, f⟩ = .ok f := by
  have hsame : k.input.id.sameAs (AnyFormat.id ⟨k.input, f⟩) = true := FormatId.sameAs_self _
  unfold takeInput
  rw [if_pos hsame, AnyFormat.as?_mk]

/-- A new stage accepts the input format that another one has ended up with, and is like it but for
the plan. -/
theorem accept_renewed (hk : k.Forgetful) (h : s.accept f count = ⟨t, .ok n, warnings⟩) :
    s.renewed.accept ⟨k.input, t.input⟩ count = ⟨{ t with plan := k.plan }, .ok n, warnings⟩ := by
  obtain ⟨input, known, output, hinput, hknown, hanswer, rfl⟩ := accept_eq_ok h
  have hwarnings : (k.accept s.settings s.shape input known count).warnings = warnings :=
    congrArg Outcome.warnings ((accept_eq hinput hknown hanswer).symm.trans h)
  obtain ⟨hrate, -⟩ := Format.takeSource_eq_ok hknown
  obtain ⟨known', hknown'⟩ := Format.exists_takeSource hknown (.initial k.output)
  obtain ⟨hrate', -⟩ := Format.takeSource_eq_ok hknown'
  have heq : k.accept s.renewed.settings s.renewed.shape input known' count =
      k.accept s.settings s.shape input known count :=
    hk.accept_eq _ _ _ input known known' count _ (hrate.trans hrate'.symm) hanswer
  have haccept := accept_eq (s := s.renewed) (takeInput_mk _ input) hknown' (heq ▸ hanswer)
  rw [haccept, heq, hwarnings]
  rfl

theorem exists_prepare_like (hk : k.Forgetful) {workers : Nat} (h : s.prepare workers = .ok t)
    (plan : k.Plan) :
    ∃ t', Stage.prepare { s with plan := plan } workers = .ok t' ∧ Like t t' := by
  obtain ⟨p, hp, rfl⟩ := prepare_eq_ok h
  obtain ⟨p', hp', hplan⟩ := hk.prepare_eq _ _ _ plan _ _ _ _ hp
  refine ⟨{ s with plan := p', prepared := true }, ?_, rfl, hplan⟩
  unfold prepare
  dsimp only
  rw [hp']

end Accept

/-- Once a stage has accepted a format of its input kind and is prepared, it is like a stage that
was created, was given the same parameters, and then accepted the same format and was prepared: that
one succeeds too, with the same formats and numbers, and both answer the same from there on. -/
theorem answers_of_rewired (hk : k ∈ builtinKernels) (calls : List Call) (f : Format k.input)
    (count workers n : Nat) (warnings : List Warning) (s s' : Stage k)
    (haccept : ((Stage.new k).after calls).accept ⟨k.input, f⟩ count = ⟨s, .ok n, warnings⟩)
    (hprepare : s.prepare workers = .ok s') :
    ∃ t t', ((Stage.new k).after (calls.filter Call.setsParameter)).accept ⟨k.input, f⟩ count =
        ⟨t, .ok n, warnings⟩ ∧
      t.prepare workers = .ok t' ∧ t'.settings = s'.settings ∧ t'.input = s'.input ∧
        t'.output = s'.output ∧ t'.count = s'.count ∧
          ∀ uses, t'.answers uses = s'.answers uses := by
  have hforgetful := Kernel.forgetful_of_mem_builtin hk
  have hrenewed : (Stage.new k).after (calls.filter Call.setsParameter) =
      ((Stage.new k).after calls).renewed := ((Stage.new k).renewed_after calls).symm
  have haccept' := accept_renewed hforgetful haccept
  have hinput : s.input = f := by
    obtain ⟨input, _, _, hinput, -, -, rfl⟩ := accept_eq_ok haccept
    exact Except.ok.inj (hinput.symm.trans (takeInput_mk _ f))
  obtain ⟨t', ht', hlike⟩ := exists_prepare_like hforgetful hprepare k.plan
  obtain ⟨hsettings, hformat, houtput, hcount⟩ := hlike.same
  subst hinput
  rw [hrenewed]
  exact ⟨_, t', haccept', ht', hsettings, hformat, houtput, hcount, hlike.answers_eq⟩

def narrowband : Rate := ⟨8000, by decide, by decide⟩

def telephone (size : Nat) : Format Signal := ⟨size, some narrowband⟩

/-- Depths are laid over arrays of four, and other depths over arrays of five, which are refused. -/
def laidTwice : List Call :=
  [.change (.setParameter "tree" "1 1"), .change (.accept ⟨Signal, telephone 4⟩ 1),
    .change (.prepare 1), .change (.setParameter "tree" "2 2 1"),
    .change (.accept ⟨Signal, telephone 5⟩ 3)]

/-- The last depths laid over arrays of eight: neither the first ones nor the refusal is left. -/
theorem answers_of_laidTwice : ∃ s s' t t' : Stage Subbands.kernel,
    ((new Subbands.kernel).after laidTwice).accept ⟨Signal, telephone 8⟩ 1 = ⟨s, .ok 1, []⟩ ∧
      s.prepare 1 = .ok s' ∧
    ((new Subbands.kernel).after (laidTwice.filter Call.setsParameter)).accept
      ⟨Signal, telephone 8⟩ 1 = ⟨t, .ok 1, []⟩ ∧ t.prepare 1 = .ok t' ∧
    ∀ uses, t'.answers uses = s'.answers uses := by
  obtain ⟨t, t', ht, ht', -, -, -, -, hanswers⟩ := answers_of_rewired (k := Subbands.kernel)
    (by simp [builtinKernels]) laidTwice (telephone 8) 1 1 1 [] _ _ rfl rfl
  exact ⟨_, _, t, t', rfl, rfl, ht, ht', hanswers⟩

end Timbre.Stage
