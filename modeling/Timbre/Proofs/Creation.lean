import Timbre.Proofs.Kernel.Setters
import Timbre.Proofs.Stage.Rewiring
import Timbre.Proofs.Text.Bytes

/-! # Creating transforms from parameter values

A registry creates a transform if every entry names a parameter that the kernel declares and has a
value that a default kernel accepts. The order of the entries does not matter for the transform; it
decides which of several bad entries is reported. Main statement: `create_ok_iff_takes`.
-/
namespace Timbre

namespace Kernel

/-- The entry names a parameter, with a value that a default kernel accepts. -/
def Takes (k : Kernel) (e : String × String) : Prop :=
  k.Declares e.1 ∧ ∃ s, k.set k.settings e.1 e.2.toList = .ok s

/-- The error for an entry that is not taken. -/
inductive Refuses (k : Kernel) (e : String × String) : Error → Prop
  | undeclared (h : ¬ k.Declares e.1) : k.Refuses e (.unknownParameter k.name e.1)
  | invalid {problem : ValueProblem} (h : k.Declares e.1)
    (hset : k.set k.settings e.1 e.2.toList = .error (.invalid problem)) :
    k.Refuses e (.invalidParameter k.name e.1 e.2 problem)

variable {k : Kernel} {e : String × String} {err : Error}

theorem Refuses.unique {err' : Error} (h : k.Refuses e err) (h' : k.Refuses e err') :
    err = err' := by
  cases h with
  | undeclared h =>
    cases h' with
    | undeclared _ => rfl
    | invalid hdeclared _ => exact absurd hdeclared h
  | invalid hdeclared hset =>
    cases h' with
    | undeclared h => exact absurd hdeclared h
    | invalid _ hset' =>
      rw [hset] at hset'
      cases hset'
      rfl

theorem Takes.not_refuses (h : k.Takes e) : ¬ k.Refuses e err := by
  rintro (hundeclared | ⟨-, hset⟩)
  · exact hundeclared h.1
  · obtain ⟨s, hs⟩ := h.2
    rw [hset] at hs
    cases hs

end Kernel

namespace Stage

variable {k : Kernel} {setters : List (Setter k.Settings)} {e e' : String × String} {err : Error}

theorem change_setParameter (s : Stage k) (name value : String) :
    s.change (.setParameter name value) =
      { s with settings := k.adjusted s.settings (name, value) } := by
  unfold change setParameter Kernel.adjusted
  dsimp only
  cases k.set s.settings name value.toList with
  | ok settings => rfl
  | error problem => cases problem <;> rfl

theorem setParameter_cases (h : k.SetBy setters) (s : Stage k) (e : String × String) :
    k.Takes e ∧
        s.setParameter e.1 e.2 = .ok { s with settings := k.adjusted s.settings e } ∨
      ∃ err, k.Refuses e err ∧ s.setParameter e.1 e.2 = .error err := by
  unfold setParameter
  cases hset : k.set s.settings e.1 e.2.toList with
  | ok settings =>
    have hdeclared : k.Declares e.1 := h.declares_of_set hset nofun
    have htaken := (h.exists_set_eq_ok_iff s.settings k.settings).1 ⟨settings, hset⟩
    rw [Kernel.adjusted_of_ok hset]
    exact .inl ⟨⟨hdeclared, htaken⟩, rfl⟩
  | error problem =>
    cases problem with
    | unknown => exact .inr ⟨_, .undeclared ((h.set_eq_unknown_iff s.settings).1 hset), rfl⟩
    | invalid problem =>
      have hdeclared : k.Declares e.1 := h.declares_of_set hset nofun
      exact .inr ⟨_, .invalid hdeclared ((h.set_eq_error_iff s.settings k.settings).1 hset), rfl⟩

theorem setParameter_of_takes (h : k.SetBy setters) (s : Stage k) (he : k.Takes e) :
    s.setParameter e.1 e.2 = .ok { s with settings := k.adjusted s.settings e } := by
  rcases s.setParameter_cases h e with ⟨-, hset⟩ | ⟨err, hrefuses, -⟩
  · exact hset
  · exact absurd hrefuses he.not_refuses

theorem setParameter_of_refuses (h : k.SetBy setters) (s : Stage k) (he : k.Refuses e err) :
    s.setParameter e.1 e.2 = .error err := by
  rcases s.setParameter_cases h e with ⟨htakes, -⟩ | ⟨err', hrefuses, hset⟩
  · exact absurd he htakes.not_refuses
  · rw [hset, he.unique hrefuses]

end Stage

namespace Transform

variable {k : Kernel} {setters : List (Setter k.Settings)} {s : Stage k} {t : Transform}
  {es es' : List (String × String)} {err : Error}

theorem setParameters_of_takes (h : k.SetBy setters) (hes : ∀ e ∈ es, k.Takes e) :
    (Transform.mk k s).setParameters es =
      .ok ⟨k, { s with settings := es.foldl k.adjusted s.settings }⟩ := by
  induction es generalizing s with
  | nil => rfl
  | cons e es ih =>
    obtain ⟨he, hes⟩ := List.forall_mem_cons.1 hes
    unfold setParameters setParameter
    rw [s.setParameter_of_takes h he]
    exact ih hes

theorem setParameters_of_refuses (h : k.SetBy setters) {before after : List (String × String)}
    {e : String × String} (hbefore : ∀ e ∈ before, k.Takes e) (he : k.Refuses e err) :
    (Transform.mk k s).setParameters (before ++ e :: after) = .error err := by
  induction before generalizing s with
  | nil =>
    rw [List.nil_append]
    unfold setParameters setParameter
    rw [s.setParameter_of_refuses h he]
  | cons e' before ih =>
    obtain ⟨he', hbefore⟩ := List.forall_mem_cons.1 hbefore
    rw [List.cons_append]
    unfold setParameters setParameter
    rw [s.setParameter_of_takes h he']
    exact ih hbefore

/-- All entries are taken, or there is a first one that is refused. -/
theorem takes_or_refuses (h : k.SetBy setters) (es : List (String × String)) :
    (∀ e ∈ es, k.Takes e) ∨ ∃ before e after err,
      es = before ++ e :: after ∧ (∀ e ∈ before, k.Takes e) ∧ k.Refuses e err := by
  induction es with
  | nil => exact .inl nofun
  | cons e es ih =>
    rcases (Stage.new k).setParameter_cases h e with ⟨he, -⟩ | ⟨err, he, -⟩
    · rcases ih with hes | ⟨before, e', after, err, rfl, hbefore, he'⟩
      · exact .inl (List.forall_mem_cons.2 ⟨he, hes⟩)
      · exact .inr ⟨e :: before, e', after, err, rfl, List.forall_mem_cons.2 ⟨he, hbefore⟩, he'⟩
    · exact .inr ⟨[], e, es, err, rfl, nofun, he⟩

theorem setParameters_eq_ok_iff (h : k.SetBy setters) :
    (Transform.mk k s).setParameters es = .ok t ↔
      (∀ e ∈ es, k.Takes e) ∧ t = ⟨k, { s with settings := es.foldl k.adjusted s.settings }⟩ := by
  constructor
  · intro hset
    rcases takes_or_refuses h es with hes | ⟨before, e, after, err, rfl, hbefore, he⟩
    · rw [setParameters_of_takes h hes] at hset
      cases hset
      exact ⟨hes, rfl⟩
    · rw [setParameters_of_refuses h hbefore he] at hset
      cases hset
  · rintro ⟨hes, rfl⟩
    exact setParameters_of_takes h hes

theorem setParameters_eq_error_iff (h : k.SetBy setters) :
    (Transform.mk k s).setParameters es = .error err ↔ ∃ before e after,
      es = before ++ e :: after ∧ (∀ e ∈ before, k.Takes e) ∧ k.Refuses e err := by
  constructor
  · intro hset
    rcases takes_or_refuses h es with hes | ⟨before, e, after, err', rfl, hbefore, he⟩
    · rw [setParameters_of_takes h hes] at hset
      cases hset
    · rw [setParameters_of_refuses h hbefore he] at hset
      cases hset
      exact ⟨before, e, after, rfl, hbefore, he⟩
  · rintro ⟨before, e, after, rfl, hbefore, he⟩
    exact setParameters_of_refuses h hbefore he

/-- The order in which different parameters are set makes no difference to the transform. -/
theorem setParameters_perm (h : k.SetBy setters) (hnames : (es.map (·.1)).Nodup)
    (hperm : es'.Perm es) :
    (Transform.mk k s).setParameters es' = .ok t ↔ (Transform.mk k s).setParameters es = .ok t := by
  have hfold : es'.foldl k.adjusted s.settings = es.foldl k.adjusted s.settings := by
    refine hperm.foldl_eq' (fun e he e' he' s => ?_) s.settings
    rw [hperm.mem_iff] at he he'
    by_cases hne : e.1 = e'.1
    · rw [List.inj_on_of_nodup_map hnames he he' hne]
    · exact h.adjusted_comm hne s
  have htakes : (∀ e ∈ es', k.Takes e) ↔ ∀ e ∈ es, k.Takes e :=
    forall_congr' fun e => by rw [hperm.mem_iff]
  rw [setParameters_eq_ok_iff h, setParameters_eq_ok_iff h, hfold, htakes]

end Transform

namespace Registry

variable {k : Kernel}

theorem find?_builtin (hk : k ∈ builtinKernels) : builtin.find? k.name = some k := by
  simp only [builtinKernels, List.mem_cons, List.not_mem_nil, or_false] at hk
  rcases hk with rfl | rfl | rfl | rfl | rfl | rfl | rfl | rfl | rfl | rfl | rfl | rfl | rfl | rfl
  all_goals rfl

theorem create_builtin (hk : k ∈ builtinKernels) (p : Params) :
    builtin.create k.name p = (Transform.new k).setParameters p.entries := by
  unfold create lookUp
  rw [find?_builtin hk]

theorem create_eq_error_iff (hk : k ∈ builtinKernels) (p : Params) (err : Error) :
    builtin.create k.name p = .error err ↔ ∃ e ∈ p.entries, k.Refuses e err ∧
      ∀ e' ∈ p.entries, Text.bytes e'.1 < Text.bytes e.1 → k.Takes e' := by
  obtain ⟨setters, h⟩ := Kernel.exists_setBy_of_mem_builtin hk
  rw [create_builtin hk, Transform.new, Transform.setParameters_eq_error_iff h]
  constructor
  · rintro ⟨before, e, after, hentries, hbefore, he⟩
    have hsorted := p.increasing
    rw [hentries, List.pairwise_append, List.pairwise_cons] at hsorted
    refine ⟨e, hentries ▸ List.mem_append_right before List.mem_cons_self, he, fun e' he' hlt => ?_⟩
    rw [hentries, List.mem_append, List.mem_cons] at he'
    rw [Text.bytes_lt_iff] at hlt
    rcases he' with he' | rfl | he'
    · exact hbefore e' he'
    · exact absurd hlt (String.lt_irrefl _)
    · exact absurd hlt (String.lt_asymm (hsorted.2.1.1 e' he'))
  · rintro ⟨e, hmem, he, hsmaller⟩
    obtain ⟨before, after, hentries⟩ := List.append_of_mem hmem
    have hsorted := p.increasing
    rw [hentries, List.pairwise_append] at hsorted
    refine ⟨before, e, after, hentries, fun e' he' => ?_, he⟩
    exact hsmaller e' (hentries ▸ List.mem_append_left _ he')
      (Text.bytes_lt (hsorted.2.2 e' he' e List.mem_cons_self))

/-- A transform is created from entries that are all taken, the same in whatever order they are set;
of several entries that are not, the one with the least name in the order of bytes is reported. In
any state, a call that sets a parameter and fails changes nothing, and calls for different
parameters can change places. -/
theorem create_ok_iff_takes (hk : k ∈ builtinKernels) (p : Params) :
    ((∃ t, builtin.create k.name p = .ok t) ↔ ∀ e ∈ p.entries, k.Takes e) ∧
    (∀ es, es.Perm p.entries → ∀ t,
      (Transform.new k).setParameters es = .ok t ↔ builtin.create k.name p = .ok t) ∧
    (∀ err, builtin.create k.name p = .error err ↔ ∃ e ∈ p.entries, k.Refuses e err ∧
      ∀ e' ∈ p.entries, Text.bytes e'.1 < Text.bytes e.1 → k.Takes e') ∧
    (∃ setters, k.SetBy setters ∧ ∀ s name text,
      match (Setter.setInPlace setters name text).run s with
      | .ok _ s' => k.set s name text = .ok s'
      | .error problem s' => k.set s name text = .error problem ∧ s' = s) ∧
    ∀ (s : Stage k) (e e' : String × String),
      (∀ err, s.setParameter e.1 e.2 = .error err ↔ k.Refuses e err) ∧
      (∀ err, s.setParameter e.1 e.2 = .error err → s.change (.setParameter e.1 e.2) = s) ∧
      (e.1 ≠ e'.1 →
        (s.change (.setParameter e.1 e.2)).change (.setParameter e'.1 e'.2) =
          (s.change (.setParameter e'.1 e'.2)).change (.setParameter e.1 e.2)) := by
  obtain ⟨setters, h⟩ := Kernel.exists_setBy_of_mem_builtin hk
  have hnames : (p.entries.map (·.1)).Nodup :=
    List.pairwise_map.2 (p.increasing.imp fun hlt => String.ne_of_lt hlt)
  refine ⟨?_, fun es hes t => ?_, create_eq_error_iff hk p, ⟨setters, h, fun s _ _ =>
    h.run_setInPlace s⟩, fun s e e' => ⟨fun err => ⟨fun hset => ?_, s.setParameter_of_refuses h⟩,
    fun err hset => ?_, fun hne => ?_⟩⟩
  · rw [create_builtin hk]
    constructor
    · rintro ⟨t, ht⟩
      exact ((Transform.setParameters_eq_ok_iff h).1 ht).1
    · exact fun hp => ⟨_, Transform.setParameters_of_takes h hp⟩
  · rw [create_builtin hk]
    exact Transform.setParameters_perm h hnames hes
  · rcases s.setParameter_cases h e with ⟨-, hok⟩ | ⟨err', hrefuses, herror⟩
    · rw [hok] at hset
      cases hset
    · rw [herror] at hset
      cases hset
      exact hrefuses
  · rw [Stage.change, hset]
    rfl
  · rw [s.change_setParameter, s.change_setParameter, Stage.change_setParameter,
      Stage.change_setParameter]
    dsimp only
    rw [h.adjusted_comm hne]

/-- Entries for a window, two of them bad; the capital letter comes first. -/
def windowEntries : Params := .ofList [("type", "hann"), ("step", "0"), ("Length", "128")]

theorem create_windowEntries : Framing.kernel ∈ builtinKernels ∧
    builtin.create Framing.kernel.name windowEntries =
      .error (.unknownParameter "Window" "Length") := by
  have hk : Framing.kernel ∈ builtinKernels := by simp [builtinKernels]
  have hleast : ∀ e ∈ windowEntries.entries, ¬ e.1 < "Length" := by decide
  exact ⟨hk, ((create_ok_iff_takes hk windowEntries).2.2.1 _).2
    ⟨("Length", "128"), by decide, .undeclared (by decide), fun e he hlt =>
      absurd (Text.bytes_lt_iff.1 hlt) (hleast e he)⟩⟩

end Registry

end Timbre
