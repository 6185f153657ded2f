import Timbre.Proofs.Pipeline.Assembly

/-! # Histories of a builder

Calls may come in any order, and each may fail. A call that fails half way leaves the stages that it
has attached; a call that succeeds gives at most one name. Whatever the calls are, the builder after
them extends the empty one by exactly the names that they gave, and a chain that was added leads
from the source to the stage that was the answer.
-/
namespace Timbre

def Rate.wideband : Rate := ⟨16000, by decide, by decide⟩

inductive Call
  | add (parent : StageId) (link : Link)
  | addChain (chain : List Link)
  | addFeature (name : String) (chain : List Link)
  | expose (name : String) (stage : StageId)

namespace Builder

variable {b b' : Builder} {id : StageId}

def fresh (registry : Registry) (source : AnyFormat) (sourceCount : Nat) : Builder :=
  { registry, source, sourceCount }

def apply (b : Builder) : Call → Builder
  | .add parent link => (b.add parent link).state
  | .addChain chain => (b.addChain chain).state
  | .addFeature name chain => (b.addFeature name chain).state
  | .expose name stage => (b.expose name stage).state

def after (b : Builder) (calls : List Call) : Builder := calls.foldl apply b

/-- The name that a call gives, with the stage that it stands for; none if the call fails. -/
def exposed (b : Builder) : Call → List (String × StageId)
  | .addFeature name chain =>
    match (b.addFeature name chain).answer with
    | .ok id => [(name, id)]
    | .error _ => []
  | .expose name id =>
    match (b.expose name id).answer with
    | .ok () => [(name, id)]
    | .error _ => []
  | _ => []

def exposures (b : Builder) : List Call → List (String × StageId)
  | [] => []
  | c :: calls => b.exposed c ++ (b.apply c).exposures calls

theorem wellFormed_fresh (registry : Registry) (source : AnyFormat) (count : Nat) :
    (fresh registry source count).WellFormed := by
  refine ⟨fun i e h => by simp [fresh] at h, fun id => ?_, fun i e h => by simp [fresh] at h⟩
  cases id <;> simp [childrenOf, fresh, size]

theorem named_fresh (registry : Registry) (source : AnyFormat) (count : Nat) :
    (fresh registry source count).Named [] :=
  ⟨fun i e h => by simp [fresh] at h, fun x h => absurd h List.not_mem_nil, List.nodup_nil⟩

theorem add_of_ok {parent : StageId} {link : Link} {e : Entry}
    (h : (b.makeEntry parent link).1 = .ok e) :
    (b.add parent link).state = b.attach e ∧ (b.add parent link).answer = .ok (.stage b.size) := by
  obtain ⟨-, -, hp, -⟩ := makeEntry_eq_ok_iff.1 h
  unfold add attach
  split
  · rename_i heq
    rw [heq] at h
    cases h
  · rename_i heq
    rw [heq] at h
    cases h
    exact ⟨by rw [hp], rfl⟩

theorem add_of_error {parent : StageId} {link : Link} {err : Error}
    (h : (b.makeEntry parent link).1 = .error err) :
    (b.add parent link).state = b ∧ (b.add parent link).answer = .error err := by
  unfold add
  split
  · rename_i heq
    rw [heq] at h
    cases h
    exact ⟨rfl, rfl⟩
  · rename_i heq
    rw [heq] at h
    cases h

theorem extends_add (b : Builder) (parent : StageId) (link : Link) :
    b.Extends (b.add parent link).state [] := by
  cases h : (b.makeEntry parent link).1 with
  | error err =>
    rw [(add_of_error h).1]
    exact .refl
  | ok e =>
    rw [(add_of_ok h).1]
    exact .attach .refl h

/-- The ways of following a link: there is a stage for it, or there is none, and making one fails or
attaches it. -/
inductive Follows (b : Builder) (parent : StageId) (link : Link) :
    Builder → Except Error StageId → Prop
  | found {id : StageId} : b.findChild? parent link = some id → Follows b parent link b (.ok id)
  | refused {err : Error} : b.findChild? parent link = none → Follows b parent link b (.error err)
  | attached {e : Entry} : b.findChild? parent link = none →
    (b.makeEntry parent link).1 = .ok e →
      Follows b parent link (b.attach e) (.ok (.stage b.size))

theorem follows_follow (b : Builder) (parent : StageId) (link : Link) :
    b.Follows parent link (b.follow parent link).state (b.follow parent link).answer := by
  unfold follow
  cases hfind : b.findChild? parent link with
  | some id => exact .found hfind
  | none =>
    dsimp only
    cases hmake : (b.makeEntry parent link).1 with
    | error err =>
      rw [(add_of_error hmake).1, (add_of_error hmake).2]
      exact .refused hfind
    | ok e =>
      rw [(add_of_ok hmake).1, (add_of_ok hmake).2]
      exact .attached hfind hmake

theorem extends_follow (b : Builder) (parent : StageId) (link : Link) :
    b.Extends (b.follow parent link).state [] := by
  have hf := follows_follow b parent link
  generalize (b.follow parent link).state = b', (b.follow parent link).answer = answer at hf
  cases hf with
  | found _ => exact .refl
  | refused _ => exact .refl
  | attached _ hmake => exact .attach .refl hmake

theorem extends_addChainFrom (b : Builder) (current : StageId) (chain : List Link) :
    b.Extends (b.addChainFrom current chain).state [] := by
  induction chain generalizing b current with
  | nil => exact .refl
  | cons link chain ih =>
    have hfollow := extends_follow b current link
    simp only [addChainFrom]
    split
    · exact hfollow
    · exact hfollow.trans (ih _ _)

theorem expose_of_ok {name : String} (h : (b.expose name id).answer = .ok ()) :
    ∃ i e, id = .stage i ∧ b.stages[i]? = some e ∧ b.hasFeature name = false ∧
      (b.expose name id).state = b.giveName i name := by
  unfold expose at h ⊢
  split at h
  · cases h
  · rename_i hname
    rw [Bool.not_eq_true] at hname
    cases id with
    | source => simp [entry] at h
    | stage i =>
      cases he : b.stages[i]? with
      | none => simp [entry, he] at h
      | some e =>
        refine ⟨i, e, rfl, he, hname, ?_⟩
        simp [hname, entry_eq_ok_iff.2 he, giveName]

theorem expose_of_error {name : String} {err : Error}
    (h : (b.expose name id).answer = .error err) : (b.expose name id).state = b := by
  unfold expose at h ⊢
  split
  · rfl
  · rename_i hname
    rw [if_neg hname] at h
    split
    · rename_i hid
      rw [hid] at h
      cases h
    · rfl
    · rfl

theorem extends_expose (b : Builder) (name : String) (id : StageId) :
    b.Extends (b.expose name id).state (b.exposed (.expose name id)) := by
  cases h : (b.expose name id).answer with
  | error err =>
    simp only [exposed, h]
    rw [expose_of_error h]
    exact .refl
  | ok u =>
    obtain ⟨i, e, rfl, he, hname, hs⟩ := expose_of_ok h
    simp only [exposed, h]
    rw [hs]
    exact .giveName .refl hname he

theorem size_expose (b : Builder) (name : String) (id : StageId) :
    (b.expose name id).state.size = b.size := by
  cases h : (b.expose name id).answer with
  | error err => rw [expose_of_error h]
  | ok u =>
    obtain ⟨i, e, -, -, -, hstate⟩ := expose_of_ok h
    rw [hstate, size_giveName]

/-- The two ways in which declaring a feature gets as far as its chain, and what they leave. -/
theorem addFeature_of_ok {name : String} {chain : List Link}
    (h : (b.addFeature name chain).answer = .ok id) :
    (b.addChain chain).answer = .ok id ∧ ((b.addChain chain).state.expose name id).answer = .ok () ∧
      (b.addFeature name chain).state = ((b.addChain chain).state.expose name id).state := by
  unfold addFeature at h ⊢
  split at h
  · cases h
  · rename_i hempty
    split at h
    · cases h
    · rename_i hname
      rw [if_neg hempty, if_neg hname]
      cases hc : (b.addChain chain).answer with
      | error err => simp [hc] at h
      | ok id' =>
        simp only [hc] at h ⊢
        cases hx : ((b.addChain chain).state.expose name id').answer with
        | error err =>
          rw [hx] at h
          cases h
        | ok u =>
          rw [hx] at h
          cases h
          exact ⟨rfl, hx, rfl⟩

theorem addFeature_of_error {name : String} {chain : List Link} {err : Error}
    (h : (b.addFeature name chain).answer = .error err) :
    (b.addFeature name chain).state = b ∨
      (b.addFeature name chain).state = (b.addChain chain).state := by
  unfold addFeature at h ⊢
  split
  · exact .inl rfl
  · rename_i hempty
    split
    · exact .inl rfl
    · rename_i hname
      rw [if_neg hempty, if_neg hname] at h
      right
      cases hc : (b.addChain chain).answer with
      | error err' => simp only [hc]
      | ok id =>
        simp only [hc] at h ⊢
        cases hx : ((b.addChain chain).state.expose name id).answer with
        | error err' => exact expose_of_error hx
        | ok u =>
          rw [hx] at h
          cases h

theorem extends_addFeature (b : Builder) (name : String) (chain : List Link) :
    b.Extends (b.addFeature name chain).state (b.exposed (.addFeature name chain)) := by
  have hchain : b.Extends (b.addChain chain).state [] := extends_addChainFrom b .source chain
  cases h : (b.addFeature name chain).answer with
  | ok id =>
    obtain ⟨-, hx, hs⟩ := addFeature_of_ok h
    have hexpose := extends_expose (b.addChain chain).state name id
    simp only [exposed, hx] at hexpose
    simp only [exposed, h]
    rw [hs]
    exact hchain.trans hexpose
  | error err =>
    simp only [exposed, h]
    rcases addFeature_of_error h with hs | hs
    · rw [hs]
      exact .refl
    · rw [hs]
      exact hchain

theorem extends_apply (b : Builder) (c : Call) : b.Extends (b.apply c) (b.exposed c) := by
  cases c with
  | add parent link => exact extends_add b parent link
  | addChain chain => exact extends_addChainFrom b .source chain
  | addFeature name chain => exact extends_addFeature b name chain
  | expose name stage => exact extends_expose b name stage

theorem extends_after (b : Builder) (calls : List Call) :
    b.Extends (b.after calls) (b.exposures calls) := by
  induction calls generalizing b with
  | nil => exact .refl
  | cons c calls ih => exact (extends_apply b c).trans (ih _)

theorem after_append (b : Builder) (calls calls' : List Call) :
    b.after (calls ++ calls') = (b.after calls).after calls' := List.foldl_append

theorem exposures_append (b : Builder) (calls calls' : List Call) :
    b.exposures (calls ++ calls') = b.exposures calls ++ (b.after calls).exposures calls' := by
  induction calls generalizing b with
  | nil => rfl
  | cons c calls ih =>
    rw [List.cons_append, exposures, exposures, ih, List.append_assoc]
    rfl

section History

variable (registry : Registry) (source : AnyFormat) (count : Nat) (calls : List Call)

theorem wellFormed_after : ((fresh registry source count).after calls).WellFormed :=
  (extends_after _ calls).wellFormed (wellFormed_fresh registry source count)

theorem named_after : ((fresh registry source count).after calls).Named
    ((fresh registry source count).exposures calls) :=
  (extends_after _ calls).named (named_fresh registry source count)

end History

theorem Path.unique {links links' : List Link} (h : b.Path id links) (h' : b.Path id links') :
    links = links' := by
  induction h generalizing links' with
  | source =>
    cases h'
    rfl
  | stage he _ ih =>
    cases h' with
    | stage he' hp =>
      rw [he] at he'
      cases he'
      rw [ih hp]

theorem WellFormed.exists_path (hb : b.WellFormed) {i : Nat} (hi : i < b.stages.size) :
    ∃ links, b.Path (.stage i) links := by
  induction i using Nat.strongRecOn with
  | ind i ih =>
    have he := Array.getElem?_eq_getElem hi
    have hle := hb.parent_le i _ he
    have hparent : ∃ links, b.Path b.stages[i].parent links := by
      cases hp : b.stages[i].parent with
      | source => exact ⟨[], .source⟩
      | stage j =>
        rw [hp] at hle
        exact ih j hle (Nat.lt_trans hle hi)
    obtain ⟨links, hlinks⟩ := hparent
    exact ⟨_, .stage he hlinks⟩

theorem Keeps.path_of_lt (h : b.Keeps b') (hb : b.WellFormed) {i : Nat} (hi : i < b.stages.size)
    {links : List Link} (hpath : b'.Path (.stage i) links) : b.Path (.stage i) links := by
  obtain ⟨links', hpath'⟩ := hb.exists_path hi
  rwa [hpath.unique (h.path hpath')]

/-- The stage of an index is below a place, for a link. -/
def IsChild (b : Builder) (parent : StageId) (link : Link) (i : Nat) : Prop :=
  ∃ e, b.stages[i]? = some e ∧ e.parent = parent ∧ e.link = link

theorem isChild_of_findChild? (hb : b.WellFormed) {parent : StageId} {link : Link}
    (h : b.findChild? parent link = some id) : ∃ i, id = .stage i ∧ b.IsChild parent link i := by
  unfold findChild? at h
  split at h
  · cases h
  · rename_i ids hids
    obtain ⟨i, hi, rfl⟩ := Option.map_eq_some_iff.1 h
    have hmem := List.mem_of_find?_eq_some hi
    have hfor := List.find?_some hi
    rw [children_eq_ok hids, hb.mem_childrenOf] at hmem
    obtain ⟨e, he, rfl⟩ := Option.map_eq_some_iff.1 hmem
    simp only [isFor, he, decide_eq_true_eq] at hfor
    exact ⟨i, rfl, e, he, rfl, hfor⟩

theorem entry_of_follow (hb : b.WellFormed) {parent next : StageId} {link : Link}
    (h : (b.follow parent link).answer = .ok next) : ∃ i e, next = .stage i ∧
      (b.follow parent link).state.stages[i]? = some e ∧ e.link = link ∧ e.parent = parent := by
  have hf := follows_follow b parent link
  generalize (b.follow parent link).state = b', (b.follow parent link).answer = answer at h hf ⊢
  cases hf with
  | found hfind =>
    cases h
    obtain ⟨i, rfl, e, he, hparent, hlink⟩ := isChild_of_findChild? hb hfind
    exact ⟨i, e, rfl, he, hlink, hparent⟩
  | refused _ => cases h
  | attached _ hmake =>
    cases h
    obtain ⟨⟨_, _, _, _, _, -, hout, -⟩, hlink, hparent, -⟩ := makeEntry_eq_ok_iff.1 hmake
    refine ⟨b.size, _, rfl, ?_, hlink, hparent⟩
    rw [getElem?_stages_attach (number_le_of_outputOf hout), if_pos rfl]

theorem path_follow (hb : b.WellFormed) {parent next : StageId} {link : Link} {links : List Link}
    (h : b.Path parent links) (ho : (b.follow parent link).answer = .ok next) :
    (b.follow parent link).state.Path next (links ++ [link]) := by
  obtain ⟨i, e, rfl, he, rfl, rfl⟩ := entry_of_follow hb ho
  exact .stage he ((extends_follow b e.parent e.link).keeps.path h)

theorem path_addChainFrom (hb : b.WellFormed) {current last : StageId} {chain links : List Link}
    (h : b.Path current links) (ho : (b.addChainFrom current chain).answer = .ok last) :
    (b.addChainFrom current chain).state.Path last (links ++ chain) := by
  induction chain generalizing b current links with
  | nil =>
    cases ho
    simpa [addChainFrom] using h
  | cons link chain ih =>
    have hwell := (extends_follow b current link).wellFormed hb
    simp only [addChainFrom] at ho ⊢
    cases hf : (b.follow current link).answer with
    | error err => simp [hf] at ho
    | ok next =>
      simp only [hf] at ho ⊢
      have := ih hwell (path_follow hb h hf) ho
      rwa [List.append_assoc, List.singleton_append] at this

/-- Following a link makes at most one stage, which lies behind the link. -/
theorem path_of_path_follow (hb : b.WellFormed) {parent : StageId} {link : Link}
    {links links' : List Link} (h : b.Path parent links)
    (hpath : (b.follow parent link).state.Path id links') :
    b.Path id links' ∨ links' = links ++ [link] := by
  have hkeeps := (extends_follow b parent link).keeps
  have hf := follows_follow b parent link
  generalize (b.follow parent link).state = b', (b.follow parent link).answer = answer
    at hpath hkeeps hf
  cases hf with
  | found _ => exact .inl hpath
  | refused _ => exact .inl hpath
  | attached _ hmake =>
    cases id with
    | source =>
      cases hpath
      exact .inl .source
    | stage i =>
      by_cases hi : i < b.size
      · exact .inl (hkeeps.path_of_lt hb hi hpath)
      · obtain ⟨⟨_, _, _, _, _, -, hout, -⟩, rfl, rfl, -⟩ := makeEntry_eq_ok_iff.1 hmake
        have hlast : i = b.size := by
          have hlt := hpath.lt_size
          rw [size_attach] at hlt
          omega
        cases hpath with
        | stage he hpath =>
          rw [getElem?_stages_attach (number_le_of_outputOf hout), if_pos hlast] at he
          cases he
          rw [hpath.unique (hkeeps.path h)]
          exact .inr rfl

theorem follow_of_error {parent : StageId} {link : Link} {err : Error}
    (h : (b.follow parent link).answer = .error err) : (b.follow parent link).state = b := by
  have hf := follows_follow b parent link
  generalize (b.follow parent link).state = b', (b.follow parent link).answer = answer at h hf ⊢
  cases hf with
  | refused _ => rfl
  | _ => cases h

/-- The stages that a chain makes lie along its prefixes, as far as it got. -/
theorem prefix_of_path_addChainFrom (hb : b.WellFormed) {current : StageId}
    {chain links links' : List Link}
    (h : b.Path current links) (hpath : (b.addChainFrom current chain).state.Path id links') :
    b.Path id links' ∨ ∃ front, front <+: chain ∧ links' = links ++ front ∧
      ∃ last, (b.addChainFrom current front).answer = .ok last := by
  induction chain generalizing b current links with
  | nil => exact .inl hpath
  | cons link chain ih =>
    have hwell := (extends_follow b current link).wellFormed hb
    simp only [addChainFrom] at hpath
    cases hf : (b.follow current link).answer with
    | error err =>
      rw [hf] at hpath
      rw [follow_of_error hf] at hpath
      exact .inl hpath
    | ok next =>
      rw [hf] at hpath
      rcases ih hwell (path_follow hb h hf) hpath with hold | ⟨front, hfront, rfl, last, hlast⟩
      · refine (path_of_path_follow hb h hold).imp_right fun heq => ?_
        refine ⟨[link], by simp, heq, next, ?_⟩
        simp [addChainFrom, hf]
      · refine .inr ⟨link :: front, List.cons_prefix_cons.2 ⟨rfl, hfront⟩, by simp, last, ?_⟩
        simp [addChainFrom, hf, hlast]

theorem path_of_addFeature (hb : b.WellFormed) {name : String} {chain : List Link}
    (h : (b.addFeature name chain).answer = .ok id) (calls : List Call) :
    (name, id) ∈ b.exposures (.addFeature name chain :: calls) ∧
      (b.after (.addFeature name chain :: calls)).Path id chain := by
  obtain ⟨hchain, hx, hs⟩ := addFeature_of_ok h
  refine ⟨List.mem_append_left _ ?_, ?_⟩
  · simp [exposed, h]
  · have hpath := path_addChainFrom hb .source hchain
    have hkeeps := (extends_expose (b.addChain chain).state name id).keeps
    refine (extends_after _ calls).keeps.path ?_
    rw [apply, hs]
    exact hkeeps.path hpath

end Builder

end Timbre
