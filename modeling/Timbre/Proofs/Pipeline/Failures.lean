import Timbre.Proofs.Pipeline.Prefixes

/-! # Calls that fail

A chain that fails has been followed up to the link that was refused, so what it leaves is what the
links in front of that one leave, and its error is the error of adding the stage there. What chains
do to a builder at all is to put new stages at its end and to list them as children; a name is only
given once the whole chain is followed, and then nothing can refuse it. Main statement:
`state_of_failure`, for any builder whatsoever.
-/
namespace Timbre.Builder

variable {b b' : Builder} {current last : StageId} {chain : List Link} {err : Error}

/-- Stages are added and nothing else: the old stages are the same but for new children, listed
behind the old ones, and the new stages have no names. -/
structure Grows (b b' : Builder) : Prop where
  registry : b'.registry = b.registry
  source : b'.source = b.source
  sourceCount : b'.sourceCount = b.sourceCount
  size_le : b.size ≤ b'.size
  sourceChildren : ∃ added, b'.sourceChildren = b.sourceChildren ++ added ∧ ∀ c ∈ added, b.size ≤ c
  old : ∀ (i : Nat) e, b.stages[i]? = some e → ∃ added,
    b'.stages[i]? = some { e with children := e.children ++ added } ∧ ∀ c ∈ added, b.size ≤ c
  new : ∀ (i : Nat) e, b.size ≤ i → b'.stages[i]? = some e → e.features = []

namespace Grows

theorem refl (b : Builder) : b.Grows b := by
  refine ⟨rfl, rfl, rfl, Nat.le_refl _, ⟨[], by simp⟩, fun i e he => ⟨[], by simpa using he⟩, ?_⟩
  intro i e hi he
  rw [Array.getElem?_eq_none hi] at he
  cases he

theorem attach {parent : StageId} {link : Link} {e : Entry} (h : b.Grows b')
    (hmake : (b'.makeEntry parent link).1 = .ok e) : b.Grows (b'.attach e) := by
  obtain ⟨⟨_, _, _, _, _, -, hout, -⟩, -, -, -, hfeatures⟩ := makeEntry_eq_ok_iff.1 hmake
  have hparent := number_le_of_outputOf hout
  have hkeeps := keeps_attach hparent
  have hsize := h.size_le
  refine ⟨hkeeps.registry.trans h.registry, hkeeps.source.trans h.source,
    hkeeps.sourceCount.trans h.sourceCount, ?_, ?_, fun i x hx => ?_, fun i x hi hx => ?_⟩
  · rw [size_attach]
    omega
  · obtain ⟨added, hadded, hnew⟩ := h.sourceChildren
    unfold Builder.attach linkChild
    cases e.parent with
    | source => exact ⟨added ++ [b'.size], by simp [hadded], by simp; grind⟩
    | stage j => exact ⟨added, hadded, hnew⟩
  · obtain ⟨added, hx', hnew⟩ := h.old i x hx
    have hne : i ≠ b'.size := Nat.ne_of_lt (Array.getElem?_eq_some_iff.1 hx').1
    rw [getElem?_stages_attach hparent, if_neg hne, hx', Option.map_some]
    split
    · exact ⟨added ++ [b'.size], by simp, by simp; grind⟩
    · exact ⟨added, rfl, hnew⟩
  · rw [getElem?_stages_attach hparent] at hx
    split at hx
    · cases hx
      exact hfeatures
    · obtain ⟨y, hy, rfl⟩ := Option.map_eq_some_iff.1 hx
      have hnone := h.new i y hi hy
      split <;> exact hnone

theorem of_extends {names : List (String × StageId)} (h : b.Extends b' names)
    (hnames : names = []) : b.Grows b' := by
  induction h with
  | refl => exact .refl b
  | attach _ hmake ih => exact (ih hnames).attach hmake
  | giveName _ _ _ _ => simp at hnames

theorem hasFeature_eq (h : b.Grows b') (name : String) :
    b'.hasFeature name = b.hasFeature name := by
  rw [Bool.eq_iff_iff, ← not_iff_not, Bool.not_eq_true, Bool.not_eq_true, hasFeature_eq_false_iff,
    hasFeature_eq_false_iff]
  constructor
  · intro hfree i e he
    obtain ⟨added, he', -⟩ := h.old i e he
    have hfeatures := hfree i _ he'
    exact hfeatures
  · intro hfree i e he
    by_cases hi : i < b.size
    · have hold : b.stages[i]? = some b.stages[i] := Array.getElem?_eq_getElem hi
      obtain ⟨added, he', -⟩ := h.old i _ hold
      obtain rfl := Option.some_inj.1 (he'.symm.trans he)
      have hfeatures := hfree i _ hold
      exact hfeatures
    · simp [h.new i e (Nat.le_of_not_lt hi) he]

end Grows

theorem grows_addChain (b : Builder) (chain : List Link) : b.Grows (b.addChain chain).state :=
  .of_extends (extends_addChainFrom b .source chain) rfl

/-- A chain is refused at a link: the links in front of it lead to a place without a stage for it,
and adding one there fails. Nothing is left of the links from there on. -/
structure FailsAt (b : Builder) (chain front : List Link) (link : Link) (err : Error) : Prop where
  split : ∃ rest, chain = front ++ link :: rest
  state_eq : (b.addChain chain).state = (b.addChain front).state
  refused : ∃ last, (b.addChain front).answer = .ok last ∧
    (b.addChain front).state.findChild? last link = none ∧
      ((b.addChain front).state.add last link).answer = .error err

theorem follow_eq_error {parent : StageId} {link : Link}
    (h : (b.follow parent link).answer = .error err) :
    b.findChild? parent link = none ∧ (b.add parent link).answer = .error err := by
  unfold follow at h
  split at h
  · cases h
  · rename_i hfind
    exact ⟨hfind, h⟩

theorem exists_refused (h : (b.addChainFrom current chain).answer = .error err) :
    ∃ front link rest last, chain = front ++ link :: rest ∧
      (b.addChainFrom current chain).state = (b.addChainFrom current front).state ∧
      (b.addChainFrom current front).answer = .ok last ∧
      (b.addChainFrom current front).state.findChild? last link = none ∧
      ((b.addChainFrom current front).state.add last link).answer = .error err := by
  induction chain generalizing b current with
  | nil => cases h
  | cons link chain ih =>
    cases hfollow : (b.follow current link).answer with
    | error err' =>
      simp only [addChainFrom, hfollow] at h ⊢
      cases h
      obtain ⟨hfind, hadd⟩ := follow_eq_error hfollow
      exact ⟨[], link, chain, current, rfl, follow_of_error hfollow, rfl, hfind, hadd⟩
    | ok next =>
      simp only [addChainFrom, hfollow] at h
      obtain ⟨front, refused, rest, last, rfl, hstate, hlast, hfind, hadd⟩ := ih h
      refine ⟨link :: front, refused, rest, last, rfl, ?_⟩
      simpa only [addChainFrom, hfollow] using ⟨hstate, hlast, hfind, hadd⟩

theorem failsAt_of_error (h : (b.addChain chain).answer = .error err) :
    ∃ front link, b.FailsAt chain front link err := by
  obtain ⟨front, link, rest, last, hsplit, hstate, hlast, hfind, hadd⟩ := exists_refused h
  exact ⟨front, link, ⟨rest, hsplit⟩, hstate, last, hlast, hfind, hadd⟩

theorem FailsAt.answer_eq {front : List Link} {link : Link} (h : b.FailsAt chain front link err) :
    (b.addChain chain).answer = .error err := by
  obtain ⟨rest, rfl⟩ := h.split
  obtain ⟨last, hlast, hfind, hadd⟩ := h.refused
  unfold addChain at hlast hfind hadd ⊢
  rw [addChainFrom_append]
  generalize b.addChainFrom .source front = o at hlast hfind hadd
  obtain ⟨state, answer, warnings⟩ := o
  dsimp only at hlast hfind hadd
  subst hlast
  simp [addChainFrom, follow, hfind, hadd]

theorem known_follow {parent next : StageId} {link : Link}
    (h : (b.follow parent link).answer = .ok next) :
    ∃ i, next = .stage i ∧ i < (b.follow parent link).state.size := by
  have hf := follows_follow b parent link
  generalize (b.follow parent link).state = b', (b.follow parent link).answer = answer at h hf ⊢
  cases hf with
  | found hfind =>
    cases h
    unfold findChild? at hfind
    split at hfind
    · cases hfind
    · obtain ⟨i, hi, rfl⟩ := Option.map_eq_some_iff.1 hfind
      have hfor := List.find?_some hi
      unfold isFor at hfor
      split at hfor
      · rename_i e he
        exact ⟨i, rfl, (Array.getElem?_eq_some_iff.1 he).1⟩
      · cases hfor
  | refused _ => cases h
  | attached _ _ =>
    cases h
    exact ⟨b.size, rfl, by rw [size_attach]; omega⟩

theorem exists_stage_of_addChainFrom (hne : chain ≠ [])
    (h : (b.addChainFrom current chain).answer = .ok last) :
    ∃ i, last = .stage i ∧ i < (b.addChainFrom current chain).state.size := by
  induction chain generalizing b current with
  | nil => exact absurd rfl hne
  | cons link chain ih =>
    cases hfollow : (b.follow current link).answer with
    | error err => simp [addChainFrom, hfollow] at h
    | ok next =>
      simp only [addChainFrom, hfollow] at h ⊢
      by_cases hchain : chain = []
      · subst hchain
        cases h
        exact known_follow hfollow
      · exact ih hchain h

theorem expose_of_known {name : String} {i : Nat} (hname : b.hasFeature name = false)
    (hi : i < b.size) : (b.expose name (.stage i)).answer = .ok () := by
  have he : b.entry (.stage i) = .ok b.stages[i] :=
    entry_eq_ok_iff.2 (Array.getElem?_eq_getElem hi)
  simp [expose, hname, he]

section Feature

variable {name : String} (hne : chain ≠ []) (hname : b.hasFeature name = false)
include hne hname

/-- Once its name is free and it has a link, a feature is declared exactly if its chain gets
through. -/
theorem answer_addFeature : (b.addFeature name chain).answer = (b.addChain chain).answer := by
  unfold addFeature
  rw [if_neg (by simpa using hne), if_neg (by simp [hname])]
  cases hchain : (b.addChain chain).answer with
  | error err => simp [hchain]
  | ok last =>
    obtain ⟨i, rfl, hi⟩ := exists_stage_of_addChainFrom hne hchain
    have hfree := ((grows_addChain b chain).hasFeature_eq name).trans hname
    have hexpose := expose_of_known hfree hi
    simp [hchain, hexpose, Except.map]

theorem addFeature_of_refused (h : (b.addChain chain).answer = .error err) :
    (b.addFeature name chain).state = (b.addChain chain).state := by
  simp [addFeature, hne, hname, h]

end Feature

theorem state_add_of_error {parent : StageId} {link : Link}
    (h : (b.add parent link).answer = .error err) : (b.add parent link).state = b := by
  cases hmake : (b.makeEntry parent link).1 with
  | error err' => exact (add_of_error hmake).1
  | ok e =>
    rw [(add_of_ok hmake).2] at h
    cases h

/-- What failing calls leave of a builder. A chain fails exactly if one of its links is refused, and
then leaves what the links in front of that one leave; its error is that of adding a stage for the
refused link where they lead. A chain only adds stages at the end, without names. A feature with a
chain and a free name fails exactly if the chain does, and then leaves the same. A feature without a
chain, or with a name in use, changes nothing, and neither does a single stage that is refused, nor
a name that is. -/
theorem state_of_failure (b : Builder) :
    (∀ chain err, (b.addChain chain).answer = .error err ↔
      ∃ front link, b.FailsAt chain front link err) ∧
    (∀ chain, b.Grows (b.addChain chain).state) ∧
    (∀ name chain, chain ≠ [] → b.hasFeature name = false →
      (b.addFeature name chain).answer = (b.addChain chain).answer ∧
      ∀ err, (b.addChain chain).answer = .error err →
        (b.addFeature name chain).state = (b.addChain chain).state ∧
        ∀ other, (b.addFeature name chain).state.hasFeature other = b.hasFeature other) ∧
    (∀ name, b.addFeature name [] = ⟨b, .error (.invalidConfig (.emptyChain name)), []⟩) ∧
    (∀ name chain, chain ≠ [] → b.hasFeature name = true →
      b.addFeature name chain = ⟨b, .error (.duplicateFeature name), []⟩) ∧
    (∀ parent link err, (b.add parent link).answer = .error err → (b.add parent link).state = b) ∧
    ∀ name id err, (b.expose name id).answer = .error err → (b.expose name id).state = b := by
  refine ⟨fun chain err => ⟨failsAt_of_error, ?_⟩, grows_addChain b, ?_, fun name => rfl, ?_,
    fun parent link err h => state_add_of_error h, fun name id err h => expose_of_error h⟩
  · rintro ⟨front, link, h⟩
    exact h.answer_eq
  · intro name chain hne hname
    refine ⟨answer_addFeature hne hname, fun err h => ?_⟩
    have hstate := addFeature_of_refused hne hname h
    refine ⟨hstate, fun other => ?_⟩
    rw [hstate, (grows_addChain b chain).hasFeature_eq]
  · intro name chain hne hname
    simp [addFeature, hne, hname]

/-- The second link names no kernel: the first one is left, and nothing has a name. -/
theorem state_of_failure_differ :
    let b := fresh .builtin ⟨Signal, ⟨(4 : Nat), some .wideband⟩⟩ 1
    let chain : List Link := [⟨"Diff", .empty⟩, ⟨"Differ", .empty⟩]
    (∃ front link, b.FailsAt chain front link (.unknownTransform "Differ")) ∧
    (b.addFeature "differences" chain).answer = .error (.unknownTransform "Differ") ∧
    (b.addFeature "differences" chain).state = (b.addChain chain).state ∧
    (b.addChain chain).state.size = 1 := by
  intro b chain
  obtain ⟨hchain, -, hfeature, -⟩ := state_of_failure b
  have herror : (b.addChain chain).answer = .error (.unknownTransform "Differ") := by decide +kernel
  obtain ⟨hanswer, hstate⟩ := hfeature "differences" chain (by simp [chain]) (by decide +kernel)
  exact ⟨(hchain _ _).1 herror, hanswer.trans herror, (hstate _ herror).1, by decide +kernel⟩

end Timbre.Builder
