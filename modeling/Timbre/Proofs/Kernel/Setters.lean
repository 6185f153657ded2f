import Timbre.Proofs.Kernel.Limits
import Timbre.Registry

/-! # Setting one parameter

A kernel sets a parameter by reading the text of its value and then assigning what was read. So
whether a value is accepted does not depend on the settings, a refusal leaves them as they were, and
since every parameter has a place of its own, two of them can be set in either order.
-/
namespace Timbre

/-- A parameter with the way its text is read: as an assignment to the settings, or as no value. -/
structure Setter (σ : Type) where
  name : String
  read : List Char → Except ValueProblem (σ → σ)

namespace Setter

variable {σ α β : Type}

/-- A value that goes to one place of the settings. -/
def field (name : String) (read : List Char → Except ValueProblem α) (put : σ → α → σ) :
    Setter σ where
  name := name
  read text := (read text).map fun a s => put s a

/-- Assignments to the two parameters can change places. -/
def Commutes (a b : Setter σ) : Prop :=
  ∀ text text' f g, a.read text = .ok f → b.read text' = .ok g → ∀ s, f (g s) = g (f s)

instance : Std.Symm (@Commutes σ) where
  symm _ _ h text text' f g hf hg s := (h text' text g f hg hf s).symm

theorem commutes_field {name name' : String} {read : List Char → Except ValueProblem α}
    {read' : List Char → Except ValueProblem β} {put : σ → α → σ} {put' : σ → β → σ}
    (h : ∀ s a b, put (put' s b) a = put' (put s a) b) :
    Commutes (field name read put) (field name' read' put') := by
  intro text text' f g hf hg s
  obtain ⟨a, -, rfl⟩ := map_eq_ok_iff.1 hf
  obtain ⟨b, -, rfl⟩ := map_eq_ok_iff.1 hg
  exact h s a b

theorem setting_field (name : String) (read : List Char → Except ValueProblem α)
    (put : σ → α → σ) (s : σ) (text : List Char) :
    (setting ((field name read put).read text)).map (· s) =
      setting (read text >>= fun a => pure (put s a)) := by
  unfold field
  dsimp only
  cases read text <;> rfl

/-- A way to set parameters that follows `setters`: the text is read, and then what was read is
assigned. Every parameter has a place of its own. -/
structure Sets (setters : List (Setter σ))
    (set : σ → String → List Char → Except ParameterError σ) : Prop where
  set_eq : ∀ a ∈ setters, ∀ s text, set s a.name text = (setting (a.read text)).map (· s)
  set_unknown : ∀ name ∉ setters.map (·.name), ∀ s text, set s name text = .error .unknown
  commutes : setters.Pairwise Commutes

/-- Setting a parameter in place: the settings are assigned to once the text is read. -/
def setInPlace (setters : List (Setter σ)) (name : String) (text : List Char) :
    EStateM ParameterError σ Unit :=
  match setters.find? (·.name == name) with
  | none => throw .unknown
  | some a => do
    let assign ← MonadExcept.ofExcept (setting (a.read text))
    modify assign

end Setter

namespace Kernel

/-- There is a setter for each parameter of the kernel, and they are how it sets them. -/
structure SetBy (k : Kernel) (setters : List (Setter k.Settings)) : Prop where
  names_eq : setters.map (·.name) = k.parameters.map (·.name)
  sets : Setter.Sets setters k.set

def Declares (k : Kernel) (name : String) : Prop := name ∈ k.parameters.map (·.name)

instance (k : Kernel) (name : String) : Decidable (k.Declares name) :=
  inferInstanceAs (Decidable (name ∈ k.parameters.map (·.name)))

def adjusted (k : Kernel) (s : k.Settings) (e : String × String) : k.Settings :=
  match k.set s e.1 e.2.toList with
  | .ok s' => s'
  | .error _ => s

variable {k : Kernel} {setters : List (Setter k.Settings)} {name name' : String}
  {text text' : List Char}

theorem adjusted_of_ok {s s' : k.Settings} {e : String × String}
    (h : k.set s e.1 e.2.toList = .ok s') : k.adjusted s e = s' := by
  rw [adjusted, h]

theorem adjusted_of_error {s : k.Settings} {e : String × String} {problem : ParameterError}
    (h : k.set s e.1 e.2.toList = .error problem) : k.adjusted s e = s := by
  rw [adjusted, h]

namespace SetBy

theorem set_of_declared (h : k.SetBy setters) (hname : k.Declares name) :
    ∃ a ∈ setters, a.name = name ∧
      ∀ s text, k.set s name text = (setting (a.read text)).map (· s) := by
  rw [Declares, ← h.names_eq, List.mem_map] at hname
  obtain ⟨a, ha, rfl⟩ := hname
  exact ⟨a, ha, rfl, h.sets.set_eq a ha⟩

theorem set_of_undeclared (h : k.SetBy setters) (hname : ¬ k.Declares name) (s : k.Settings)
    (text : List Char) : k.set s name text = .error .unknown := by
  rw [Declares, ← h.names_eq] at hname
  exact h.sets.set_unknown name hname s text

theorem declares_of_set (h : k.SetBy setters) {s : k.Settings}
    {r : Except ParameterError k.Settings} (hset : k.set s name text = r)
    (hr : r ≠ .error .unknown) : k.Declares name := by
  by_contra hname
  exact hr (hset ▸ h.set_of_undeclared hname s text)

/-- A value is accepted, or refused for the same reason, whatever the settings are. -/
theorem set_eq_map (h : k.SetBy setters) (name : String) (text : List Char) :
    ∃ r : Except ParameterError (k.Settings → k.Settings),
      ∀ s, k.set s name text = r.map (· s) := by
  by_cases hname : k.Declares name
  · obtain ⟨a, -, -, ha⟩ := h.set_of_declared hname
    exact ⟨setting (a.read text), fun s => ha s text⟩
  · exact ⟨.error .unknown, fun s => h.set_of_undeclared hname s text⟩

theorem set_eq_error_iff (h : k.SetBy setters) {problem : ParameterError} (s s' : k.Settings) :
    k.set s name text = .error problem ↔ k.set s' name text = .error problem := by
  obtain ⟨r, hr⟩ := h.set_eq_map name text
  rw [hr, hr]
  cases r <;> simp [Except.map]

theorem exists_set_eq_ok_iff (h : k.SetBy setters) (s s' : k.Settings) :
    (∃ t, k.set s name text = .ok t) ↔ ∃ t, k.set s' name text = .ok t := by
  obtain ⟨r, hr⟩ := h.set_eq_map name text
  rw [hr, hr]
  cases r <;> simp [Except.map]

theorem set_eq_unknown_iff (h : k.SetBy setters) (s : k.Settings) :
    k.set s name text = .error .unknown ↔ ¬ k.Declares name := by
  refine ⟨fun hset hname => ?_, fun hname => h.set_of_undeclared hname s text⟩
  obtain ⟨a, -, -, ha⟩ := h.set_of_declared hname
  rw [ha, setting] at hset
  cases hread : a.read text <;> simp [hread, Except.map, Except.mapError] at hset

theorem run_setInPlace (h : k.SetBy setters) (s : k.Settings) :
    match (Setter.setInPlace setters name text).run s with
    | .ok _ s' => k.set s name text = .ok s'
    | .error problem s' => k.set s name text = .error problem ∧ s' = s := by
  unfold Setter.setInPlace
  cases hfind : setters.find? (·.name == name) with
  | none =>
    have hname : name ∉ setters.map (·.name) := by
      simpa [List.find?_eq_none] using hfind
    exact ⟨h.sets.set_unknown name hname s text, rfl⟩
  | some a =>
    have hname : a.name = name := by simpa using List.find?_some hfind
    have hset := h.sets.set_eq a (List.mem_of_find?_eq_some hfind) s text
    rw [hname] at hset
    rw [hset]
    dsimp only
    cases setting (a.read text) with
    | error problem => exact ⟨rfl, rfl⟩
    | ok assign => rfl

theorem set_comm (h : k.SetBy setters) (hne : name ≠ name') {s s₁ s₂ : k.Settings}
    (h₁ : k.set s name text = .ok s₁) (h₂ : k.set s name' text' = .ok s₂) :
    ∃ t, k.set s₁ name' text' = .ok t ∧ k.set s₂ name text = .ok t := by
  obtain ⟨a, ha, rfl, hset⟩ := h.set_of_declared (h.declares_of_set h₁ nofun)
  obtain ⟨b, hb, rfl, hset'⟩ := h.set_of_declared (h.declares_of_set h₂ nofun)
  rw [hset, map_eq_ok_iff] at h₁
  rw [hset', map_eq_ok_iff] at h₂
  obtain ⟨f, hf, rfl⟩ := h₁
  obtain ⟨g, hg, rfl⟩ := h₂
  have hcommutes : Setter.Commutes a b :=
    h.sets.commutes.forall ha hb fun hab => hne (congrArg Setter.name hab)
  refine ⟨g (f s), ?_, ?_⟩
  · rw [hset', hg]
    rfl
  · rw [hset, hf]
    exact congrArg Except.ok
      (hcommutes _ _ f g (mapError_eq_ok_iff.1 hf) (mapError_eq_ok_iff.1 hg) s)

/-- Calls for different parameters can change places, whether or not they are accepted. -/
theorem adjusted_comm (h : k.SetBy setters) {e e' : String × String} (hne : e.1 ≠ e'.1)
    (s : k.Settings) : k.adjusted (k.adjusted s e) e' = k.adjusted (k.adjusted s e') e := by
  cases hset : k.set s e.1 e.2.toList with
  | error problem =>
    rw [adjusted_of_error hset,
      adjusted_of_error ((h.set_eq_error_iff s (k.adjusted s e')).1 hset)]
  | ok s₁ =>
    cases hset' : k.set s e'.1 e'.2.toList with
    | error problem =>
      rw [adjusted_of_error hset',
        adjusted_of_error ((h.set_eq_error_iff s (k.adjusted s e)).1 hset')]
    | ok s₂ =>
      obtain ⟨t, ht, ht'⟩ := h.set_comm hne hset hset'
      rw [adjusted_of_ok hset, adjusted_of_ok hset', adjusted_of_ok ht, adjusted_of_ok ht']

end SetBy

theorem setBy_nil (hparameters : k.parameters = []) (hset : k.set = noParameters) :
    k.SetBy [] where
  names_eq := by rw [hparameters]; rfl
  sets := by
    rw [hset]
    exact ⟨nofun, fun _ _ _ _ => rfl, .nil⟩

end Kernel

namespace Framing

def setters : List (Setter Settings) :=
  [.field "length" (Parameter.readSize 1 maxSize) fun s n => { s with length := n },
    .field "step" (Parameter.readSize 1 maxSize) fun s n => { s with step := n },
    .field "type" (Parameter.readChoice WindowType.choices) fun s w => { s with window := w }]

theorem sets_setters : Setter.Sets setters set where
  set_eq := by
    simp only [setters, List.forall_mem_cons, Setter.setting_field]
    exact ⟨fun _ _ => rfl, fun _ _ => rfl, fun _ _ => rfl, nofun⟩
  set_unknown name hname s text := by
    unfold set
    split
    case h_4 => rfl
    all_goals exact absurd (by decide) hname
  commutes := by simp [setters, Setter.commutes_field]

theorem setBy_kernel : kernel.SetBy setters := ⟨rfl, sets_setters⟩

end Framing

namespace Averages

def setters : List (Setter (List MeanType)) := [.field "types" readTypes fun _ types => types]

theorem sets_setters : Setter.Sets setters set where
  set_eq := by
    simp only [setters, List.forall_mem_singleton, Setter.setting_field, bind_pure]
    exact fun _ _ => rfl
  set_unknown name hname _ text := by
    unfold set
    split
    · exact absurd (by decide) hname
    · rfl
  commutes := List.pairwise_singleton _ _

theorem setBy_meanKernel : meanKernel.SetBy setters := ⟨rfl, sets_setters⟩

end Averages

namespace Difference

def setters : List (Setter Settings) :=
  [.field "rectify" Parameter.readBool fun s b => { s with rectify := b },
    .field "swt" (Parameter.readSize 0 maxLevel) fun s n => { s with level := n }]

theorem sets_setters : Setter.Sets setters set where
  set_eq := by
    simp only [setters, List.forall_mem_cons, Setter.setting_field]
    exact ⟨fun _ _ => rfl, fun _ _ => rfl, nofun⟩
  set_unknown name hname s text := by
    unfold set
    split
    case h_3 => rfl
    all_goals exact absurd (by decide) hname
  commutes := by simp [setters, Setter.commutes_field]

theorem setBy_kernel : kernel.SetBy setters := ⟨rfl, sets_setters⟩

end Difference

namespace FilterBank

def setters : List (Setter Settings) :=
  [.field "type" (Parameter.readChoice FrequencyScale.choices) fun s x => { s with scale := x },
    .field "number" (Parameter.readSize 1 maxFilters) fun s n => { s with number := n },
    .field "frequency_min" Parameter.readPositive fun s x => { s with low := x },
    .field "frequency_max" Parameter.readPositive fun s x => { s with high := x },
    .field "squared" Parameter.readBool fun s b => { s with squared := b }]

theorem sets_setters : Setter.Sets setters set where
  set_eq := by
    simp only [setters, List.forall_mem_cons, Setter.setting_field]
    exact ⟨fun _ _ => rfl, fun _ _ => rfl, fun _ _ => rfl, fun _ _ => rfl, fun _ _ => rfl, nofun⟩
  set_unknown name hname s text := by
    unfold set
    split
    case h_6 => rfl
    all_goals exact absurd (by decide) hname
  commutes := by simp [setters, Setter.commutes_field]

theorem setBy_kernel : kernel.SetBy setters := ⟨rfl, sets_setters⟩

end FilterBank

namespace Subbands

def setters : List (Setter (List Nat)) := [.field "tree" readDepths fun _ depths => depths]

theorem sets_setters : Setter.Sets setters set where
  set_eq := by
    simp only [setters, List.forall_mem_singleton, Setter.setting_field, bind_pure]
    exact fun _ _ => rfl
  set_unknown name hname _ text := by
    unfold set
    split
    · exact absurd (by decide) hname
    · rfl
  commutes := List.pairwise_singleton _ _

theorem setBy_kernel : kernel.SetBy setters := ⟨rfl, sets_setters⟩

end Subbands

namespace Tempo

def setters : List (Setter (Settings Single)) :=
  [.field "bands" (Parameter.readSize 1 maxSize) fun s n => { s with bands := n },
    .field "pulses" (Parameter.readSize 1 maxPulses) fun s n => { s with pulses := n },
    .field "min_bpm" (Parameter.readWord 1 maxTempo) fun s n => { s with minTempo := n },
    .field "max_bpm" (Parameter.readWord 1 maxTempo) fun s n => { s with maxTempo := n },
    .field "resolution1" (Parameter.readSingleWithin minResolution maxTempo)
      fun s x => { s with coarse := x },
    .field "resolution2" (Parameter.readSingleWithin minResolution maxTempo)
      fun s x => { s with fine := x },
    .field "max_peaks" (Parameter.readSize 1 maxPeaks) fun s n => { s with peaks := n }]

theorem sets_setters : Setter.Sets setters set where
  set_eq := by
    simp only [setters, List.forall_mem_cons, Setter.setting_field]
    exact ⟨fun _ _ => rfl, fun _ _ => rfl, fun _ _ => rfl, fun _ _ => rfl, fun _ _ => rfl,
      fun _ _ => rfl, fun _ _ => rfl, nofun⟩
  set_unknown name hname s text := by
    unfold set
    split
    case h_8 => rfl
    all_goals exact absurd (by decide) hname
  commutes := by simp [setters, Setter.commutes_field]

theorem setBy_kernel : kernel.SetBy setters := ⟨rfl, sets_setters⟩

end Tempo

namespace Kernel

theorem exists_setBy_of_mem_builtin {k : Kernel} (h : k ∈ builtinKernels) :
    ∃ setters, k.SetBy setters := by
  simp only [builtinKernels, List.mem_cons, List.not_mem_nil, or_false] at h
  rcases h with rfl | rfl | rfl | rfl | rfl | rfl | rfl | rfl | rfl | rfl | rfl | rfl | rfl | rfl
  · exact ⟨[], setBy_nil rfl rfl⟩
  · exact ⟨_, Framing.setBy_kernel⟩
  · exact ⟨[], setBy_nil rfl rfl⟩
  · exact ⟨[], setBy_nil rfl rfl⟩
  · exact ⟨[], setBy_nil rfl rfl⟩
  · exact ⟨[], setBy_nil rfl rfl⟩
  · exact ⟨[], setBy_nil rfl rfl⟩
  · exact ⟨[], setBy_nil rfl rfl⟩
  · exact ⟨_, Averages.setBy_meanKernel⟩
  · exact ⟨_, Difference.setBy_kernel⟩
  · exact ⟨_, FilterBank.setBy_kernel⟩
  · exact ⟨_, Subbands.setBy_kernel⟩
  · exact ⟨[], setBy_nil rfl rfl⟩
  · exact ⟨_, Tempo.setBy_kernel⟩

end Kernel

end Timbre
