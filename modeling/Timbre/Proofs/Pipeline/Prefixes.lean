import Mathlib.Data.List.Infix
import Mathlib.Data.Set.Card
import Mathlib.Tactic.Choose
import Timbre.Proofs.Pipeline.History

/-! # Shared prefixes

As long as stages are only made by chains, no two children of a place are for the same link, so a
stage is known by the links that lead to it: the stages are the nodes of a trie. Its words are the
prefixes up to which the chains of all calls got, whether a call got to the end of its chain or not.
Main statement: `trie_after`.
-/
namespace Timbre.Builder

variable {b b' : Builder} {parent id id' : StageId} {link : Link} {links chain : List Link}
  {i j : Nat}

/-- No two children of a place are for the same link. -/
def DistinctSiblings (b : Builder) : Prop :=
  ∀ parent link i j, b.IsChild parent link i → b.IsChild parent link j → i = j

namespace Keeps

variable (h : b.Keeps b')
include h

theorem isChild_iff (hi : i < b.size) : b'.IsChild parent link i ↔ b.IsChild parent link i := by
  have he : b.stages[i]? = some b.stages[i] := Array.getElem?_eq_getElem hi
  obtain ⟨e', he', hlink, -, hparent⟩ := h.stages i _ he
  simp [IsChild, he, he', hlink, hparent]

theorem distinctSiblings (hsize : b'.size = b.size) (hd : b.DistinctSiblings) :
    b'.DistinctSiblings := by
  have hlt {i : Nat} {parent : StageId} {link : Link} (hi : b'.IsChild parent link i) :
      i < b.size := by
    obtain ⟨e, he, -⟩ := hi
    exact hsize ▸ (Array.getElem?_eq_some_iff.1 he).1
  intro parent link i j hi hj
  exact hd parent link i j ((h.isChild_iff (hlt hi)).1 hi) ((h.isChild_iff (hlt hj)).1 hj)

end Keeps

section FindChild

variable (hb : b.WellFormed)
include hb

theorem children_of_isChild (h : b.IsChild parent link i) :
    b.children parent = .ok (b.childrenOf parent) := by
  obtain ⟨e, he, rfl, rfl⟩ := h
  cases hp : e.parent with
  | source => rfl
  | stage j =>
    have hle := hb.parent_le i e he
    rw [hp] at hle
    have hj : j < b.stages.size := Nat.lt_trans hle (Array.getElem?_eq_some_iff.1 he).1
    have hej := Array.getElem?_eq_getElem hj
    simp [children, childrenOf, entry_eq_ok_iff.2 hej, hej]

theorem exists_findChild? (h : b.IsChild parent link i) :
    ∃ id, b.findChild? parent link = some id := by
  have hchildren := children_of_isChild hb h
  obtain ⟨e, he, rfl, rfl⟩ := h
  have hmem : i ∈ b.childrenOf e.parent := hb.mem_childrenOf.2 (by rw [parentOf?, he]; rfl)
  have hfor : b.isFor e.link i = true := by simp [isFor, he]
  unfold findChild?
  rw [hchildren]
  dsimp only
  cases hfind : (b.childrenOf e.parent).find? (b.isFor e.link) with
  | none => exact absurd hfor (List.find?_eq_none.1 hfind i hmem)
  | some j => exact ⟨_, rfl⟩

theorem DistinctSiblings.follow_eq (hd : b.DistinctSiblings) (h : b.IsChild parent link i) :
    b.follow parent link = ⟨b, .ok (.stage i), []⟩ := by
  obtain ⟨id, hid⟩ := exists_findChild? hb h
  obtain ⟨j, rfl, hj⟩ := isChild_of_findChild? hb hid
  obtain rfl := hd parent link i j h hj
  unfold follow
  rw [hid]

end FindChild

namespace DistinctSiblings

theorem attach {e : Entry} (hd : b.DistinctSiblings) (hp : e.parent.number ≤ b.size)
    (hnew : ∀ i, ¬ b.IsChild e.parent e.link i) : (b.attach e).DistinctSiblings := by
  have hcases {parent : StageId} {link : Link} {i : Nat}
      (hi : (b.attach e).IsChild parent link i) :
      b.IsChild parent link i ∨ i = b.size ∧ parent = e.parent ∧ link = e.link := by
    by_cases hlt : i < b.size
    · exact .inl (((keeps_attach hp).isChild_iff hlt).1 hi)
    · obtain ⟨x, hx, rfl, rfl⟩ := hi
      have hlast : i = b.size := by
        have hi : i < (b.attach e).size := (Array.getElem?_eq_some_iff.1 hx).1
        rw [size_attach] at hi
        omega
      rw [getElem?_stages_attach hp, if_pos hlast] at hx
      cases hx
      exact .inr ⟨hlast, rfl, rfl⟩
  intro parent link i j hi hj
  rcases hcases hi with hold | ⟨rfl, rfl, rfl⟩ <;> rcases hcases hj with hold' | ⟨rfl, hp', hl'⟩
  · exact hd parent link i j hold hold'
  · rw [hp', hl'] at hold
    exact absurd hold (hnew i)
  · exact absurd hold' (hnew j)
  · rfl

variable (hb : b.WellFormed) (hd : b.DistinctSiblings)
include hb hd

theorem follow (parent : StageId) (link : Link) :
    (b.follow parent link).state.DistinctSiblings := by
  have hf := follows_follow b parent link
  generalize (b.follow parent link).state = b', (b.follow parent link).answer = answer at hf
  cases hf with
  | found _ => exact hd
  | refused _ => exact hd
  | attached hnone hmake =>
    obtain ⟨⟨_, _, _, _, _, -, hout, -⟩, rfl, rfl, -⟩ := makeEntry_eq_ok_iff.1 hmake
    refine hd.attach (number_le_of_outputOf hout) fun i hi => ?_
    obtain ⟨id, hid⟩ := exists_findChild? hb hi
    rw [hnone] at hid
    cases hid

theorem addChainFrom (current : StageId) (chain : List Link) :
    (b.addChainFrom current chain).state.DistinctSiblings := by
  induction chain generalizing b current with
  | nil => exact hd
  | cons link chain ih =>
    have hfollow := hd.follow hb current link
    simp only [Builder.addChainFrom]
    split
    · exact hfollow
    · exact ih ((extends_follow b current link).wellFormed hb) hfollow _

end DistinctSiblings

/-- Different stages are behind different links. -/
theorem DistinctSiblings.path_inj (hd : b.DistinctSiblings) (h : b.Path id links)
    (h' : b.Path id' links) : id = id' := by
  generalize hlinks : links = links' at h'
  induction h generalizing id' links' with
  | source =>
    cases h' with
    | source => rfl
    | stage => simp at hlinks
  | stage he hpath ih =>
    cases h' with
    | source => simp at hlinks
    | stage he' hpath' =>
      obtain ⟨rfl, hlink⟩ := List.append_inj' hlinks rfl
      have hparent := ih _ rfl hpath'
      have hlink := List.head_eq_of_cons_eq hlink
      exact congrArg _ (hd _ _ _ _ ⟨_, he, hparent, hlink⟩ ⟨_, he', rfl, rfl⟩)

theorem addChainFrom_append (b : Builder) (current : StageId) (chain chain' : List Link) :
    b.addChainFrom current (chain ++ chain') =
      match b.addChainFrom current chain with
      | ⟨state, .error e, warnings⟩ => ⟨state, .error e, warnings⟩
      | ⟨state, .ok next, warnings⟩ =>
        let rest := state.addChainFrom next chain'
        ⟨rest.state, rest.answer, warnings ++ rest.warnings⟩ := by
  induction chain generalizing b current with
  | nil => rfl
  | cons link chain ih =>
    simp only [List.cons_append, addChainFrom]
    cases (b.follow current link).answer with
    | error e => rfl
    | ok next =>
      simp only [ih]
      cases (b.follow current link).state.addChainFrom next chain with
      | mk state answer warnings =>
        cases answer with
        | error e => rfl
        | ok last => simp

theorem keeps_addChain_append (h : (b.addChain chain).answer = .ok id) (rest : List Link) :
    (b.addChain chain).state.Keeps (b.addChain (chain ++ rest)).state := by
  unfold addChain at h ⊢
  rw [addChainFrom_append]
  cases hchain : b.addChainFrom .source chain with
  | mk state answer warnings =>
    rw [hchain] at h
    dsimp only at h
    subst h
    exact (extends_addChainFrom state id rest).keeps

theorem DistinctSiblings.addChain_eq (hb : b.WellFormed) (hd : b.DistinctSiblings)
    (h : b.Path id links) : b.addChain links = ⟨b, .ok id, []⟩ := by
  induction h with
  | source => rfl
  | stage he _ ih =>
    have hchild := hd.follow_eq hb ⟨_, he, rfl, rfl⟩
    unfold addChain at ih ⊢
    rw [addChainFrom_append, ih]
    simp [Builder.addChainFrom, hchild]

def labels (b : Builder) : Set (List Link) := {q | ∃ i, b.Path (.stage i) q}

/-- The chain that a call follows; none if the name of a feature is in use. -/
def chainOf (b : Builder) : Call → List Link
  | .addChain chain => chain
  | .addFeature name chain => if b.hasFeature name then [] else chain
  | _ => []

/-- The prefixes of its chain up to which a call gets. -/
def accepted (b : Builder) (c : Call) : List (List Link) :=
  (b.chainOf c).inits.filter fun q => !q.isEmpty && (b.addChain q).answer.isOk

def acceptances (b : Builder) : List Call → List (List Link)
  | [] => []
  | c :: calls => b.accepted c ++ (b.apply c).acceptances calls

/-- The chain of a call that succeeds, with the place to which it leads. -/
def ended (b : Builder) : Call → List (List Link × StageId)
  | .addChain chain =>
    match (b.addChain chain).answer with
    | .ok id => [(chain, id)]
    | .error _ => []
  | .addFeature name chain =>
    match (b.addFeature name chain).answer with
    | .ok id => [(chain, id)]
    | .error _ => []
  | _ => []

def endings (b : Builder) : List Call → List (List Link × StageId)
  | [] => []
  | c :: calls => b.ended c ++ (b.apply c).endings calls

theorem mem_accepted_iff {c : Call} : links ∈ b.accepted c ↔
    links <+: b.chainOf c ∧ links ≠ [] ∧ ∃ id, (b.addChain links).answer = .ok id := by
  have hok {ε α : Type} (x : Except ε α) : x.isOk = true ↔ ∃ a, x = .ok a := by
    cases x <;> simp [Except.isOk, Except.toBool]
  simp [accepted, hok]

/-- A chain adds the prefixes up to which it gets, and nothing else. -/
theorem labels_addChain (hb : b.WellFormed) (chain : List Link) :
    (b.addChain chain).state.labels = b.labels ∪ {q | q <+: chain ∧ q ≠ [] ∧
      ∃ id, (b.addChain q).answer = .ok id} := by
  have hkeeps := (extends_addChainFrom b .source chain).keeps
  ext q
  constructor
  · rintro ⟨i, hi⟩
    rcases prefix_of_path_addChainFrom hb .source hi with hold | ⟨front, hfront, rfl, hlast⟩
    · exact .inl ⟨i, hold⟩
    · exact .inr ⟨hfront, hi.ne_nil, hlast⟩
  · rintro (⟨i, hi⟩ | ⟨⟨rest, rfl⟩, hne, id, hid⟩)
    · exact ⟨i, hkeeps.path hi⟩
    · have hpath := (keeps_addChain_append hid rest).path (path_addChainFrom hb .source hid)
      cases id with
      | source => exact absurd hpath.eq_nil hne
      | stage i => exact ⟨i, hpath⟩

theorem Keeps.labels_eq (h : b.Keeps b') (hb : b.WellFormed) (hsize : b'.size = b.size) :
    b'.labels = b.labels := by
  ext q
  refine ⟨fun ⟨i, hi⟩ => ⟨i, ?_⟩, fun ⟨i, hi⟩ => ⟨i, h.path hi⟩⟩
  have hlt : i < b.size := by
    have := hi.lt_size
    omega
  exact h.path_of_lt hb hlt hi

theorem state_addFeature (b : Builder) (name : String) (chain : List Link) :
    (b.addFeature name chain).state = (b.addChain (b.chainOf (.addFeature name chain))).state ∨
      ∃ id, (b.addFeature name chain).state =
        ((b.addChain (b.chainOf (.addFeature name chain))).state.expose name id).state := by
  unfold addFeature
  by_cases hempty : chain.isEmpty = true
  · obtain rfl := List.isEmpty_iff.1 hempty
    simp [chainOf, addChain, addChainFrom]
  · rw [if_neg hempty]
    by_cases hname : b.hasFeature name = true
    · simp [chainOf, hname, addChain, addChainFrom]
    · rw [if_neg hname, chainOf, if_neg hname]
      dsimp only
      cases (b.addChain chain).answer with
      | error err => exact .inl rfl
      | ok id => exact .inr ⟨id, rfl⟩

section Calls

variable {c : Call} (hc : ∀ parent link, c ≠ .add parent link)
include hc

/-- All that a call does to the stages is done by its chain; for the rest it gives a name. -/
theorem keeps_apply (b : Builder) : (b.addChain (b.chainOf c)).state.Keeps (b.apply c) ∧
    (b.apply c).size = (b.addChain (b.chainOf c)).state.size := by
  have hexpose (b : Builder) (name : String) (id : StageId) :
      b.Keeps (b.expose name id).state ∧ (b.expose name id).state.size = b.size :=
    ⟨(extends_expose b name id).keeps, size_expose b name id⟩
  cases c with
  | add parent link => exact absurd rfl (hc parent link)
  | addChain chain => exact ⟨.refl _, rfl⟩
  | expose name id => exact hexpose b name id
  | addFeature name chain =>
    rw [apply]
    rcases state_addFeature b name chain with hstate | ⟨id, hstate⟩
    · rw [hstate]
      exact ⟨.refl _, rfl⟩
    · rw [hstate]
      exact hexpose _ name id

variable (hb : b.WellFormed)
include hb

theorem labels_apply : (b.apply c).labels = b.labels ∪ {q | q ∈ b.accepted c} := by
  obtain ⟨hkeeps, hsize⟩ := keeps_apply hc b
  have hwell := (extends_addChainFrom b .source (b.chainOf c)).wellFormed hb
  rw [hkeeps.labels_eq hwell hsize, labels_addChain hb]
  simp only [mem_accepted_iff]

theorem DistinctSiblings.apply (hd : b.DistinctSiblings) : (b.apply c).DistinctSiblings := by
  obtain ⟨hkeeps, hsize⟩ := keeps_apply hc b
  exact hkeeps.distinctSiblings hsize (hd.addChainFrom hb .source (b.chainOf c))

end Calls

section After

variable {calls : List Call} (hcalls : ∀ parent link, Call.add parent link ∉ calls)
  (hb : b.WellFormed)
include hcalls hb

theorem labels_after : (b.after calls).labels = b.labels ∪ {q | q ∈ b.acceptances calls} := by
  induction calls generalizing b with
  | nil => simp [after, acceptances]
  | cons c calls ih =>
    have hc (parent : StageId) (link : Link) : c ≠ .add parent link :=
      fun h => hcalls parent link (h ▸ List.mem_cons_self)
    have hrest := ih (fun parent link h => hcalls parent link (List.mem_cons_of_mem c h))
      ((extends_apply b c).wellFormed hb)
    change ((b.apply c).after calls).labels = _
    rw [hrest, labels_apply hc hb, Set.union_assoc]
    simp [acceptances, Set.ext_iff]

theorem DistinctSiblings.after (hd : b.DistinctSiblings) : (b.after calls).DistinctSiblings := by
  induction calls generalizing b with
  | nil => exact hd
  | cons c calls ih =>
    have hc (parent : StageId) (link : Link) : c ≠ .add parent link :=
      fun h => hcalls parent link (h ▸ List.mem_cons_self)
    exact ih (fun parent link h => hcalls parent link (List.mem_cons_of_mem c h))
      ((extends_apply b c).wellFormed hb) (hd.apply hc hb)

end After

theorem path_of_mem_endings (hb : b.WellFormed) {calls : List Call} {x : List Link × StageId}
    (h : x ∈ b.endings calls) : (b.after calls).Path x.2 x.1 := by
  induction calls generalizing b with
  | nil => exact absurd h List.not_mem_nil
  | cons c calls ih =>
    rcases List.mem_append.1 h with hx | hx
    · cases c with
      | addChain chain =>
        cases hid : (b.addChain chain).answer with
        | error err => simp [ended, hid] at hx
        | ok id =>
          obtain rfl : x = (chain, id) := by simpa [ended, hid] using hx
          exact (extends_after (b.addChain chain).state calls).keeps.path
            (path_addChainFrom hb .source hid)
      | addFeature name chain =>
        cases hid : (b.addFeature name chain).answer with
        | error err => simp [ended, hid] at hx
        | ok id =>
          obtain rfl : x = (chain, id) := by simpa [ended, hid] using hx
          exact (path_of_addFeature hb hid calls).2
      | _ => exact absurd hx List.not_mem_nil
    · exact ih ((extends_apply b c).wellFormed hb) hx

/-- The stages are the nodes of a trie of prefixes, each named by the links on its path, and chains
lead to them. -/
structure Trie (b : Builder) (prefixes : List (List Link)) (ends : List (List Link × StageId)) :
    Prop where
  siblings : ∀ parent, ∀ i ∈ b.childrenOf parent, ∀ j ∈ b.childrenOf parent, ∀ e e',
    b.stages[i]? = some e → b.stages[j]? = some e' → i ≠ j →
      ¬ (e.link.name = e'.link.name ∧ e.link.params = e'.link.params)
  labelled : ∃ label : Nat → List Link, (∀ i < b.size, b.Path (.stage i) (label i)) ∧
    Set.BijOn label {i | i < b.size} {q | q ∈ prefixes}
  size_eq : b.size = prefixes.toFinset.card
  same_end : ∀ x ∈ ends, ∀ y ∈ ends, x.2 = y.2 ↔ x.1 = y.1
  /-- A chain that goes no farther than others did makes no stage. -/
  again : ∀ q ∈ prefixes, ∃ i < b.size, b.Path (.stage i) q ∧
    b.addChain q = ⟨b, .ok (.stage i), []⟩
  /-- A whole chain that is added again leads to where it led before. -/
  same_again : ∀ x ∈ ends, b.addChain x.1 = ⟨b, .ok x.2, []⟩
  same_feature : ∀ x ∈ ends, ∀ name i, x.2 = .stage i → b.hasFeature name = false →
    b.addFeature name x.1 = ⟨b.giveName i name, .ok x.2, []⟩

theorem size_eq_card {label : Nat → List Link} {prefixes : List (List Link)}
    (h : Set.BijOn label {i | i < b.size} {q | q ∈ prefixes}) :
    b.size = prefixes.toFinset.card := by
  have himage : (Finset.range b.size).image label = prefixes.toFinset := by
    apply Finset.coe_injective
    rw [Finset.coe_image, List.coe_toFinset, ← h.image_eq]
    congr 1
    ext i
    simp
  rw [← himage, Finset.card_image_of_injOn, Finset.card_range]
  exact fun i hi j hj => h.injOn (Finset.mem_range.1 hi) (Finset.mem_range.1 hj)

section Trie

variable (hb : b.WellFormed) (hd : b.DistinctSiblings)
include hb hd

theorem link_ne_of_mem_childrenOf {e e' : Entry} (hi : i ∈ b.childrenOf parent)
    (hj : j ∈ b.childrenOf parent) (he : b.stages[i]? = some e) (he' : b.stages[j]? = some e')
    (hij : i ≠ j) : e.link ≠ e'.link := by
  rw [hb.mem_childrenOf, parentOf?, he] at hi
  rw [hb.mem_childrenOf, parentOf?, he'] at hj
  exact fun hlink => hij (hd parent e'.link i j ⟨e, he, Option.some_inj.1 hi, hlink⟩
    ⟨e', he', Option.some_inj.1 hj, rfl⟩)

theorem exists_label : ∃ label : Nat → List Link, (∀ i < b.size, b.Path (.stage i) (label i)) ∧
    Set.BijOn label {i | i < b.size} b.labels := by
  have hpath (i : Nat) : ∃ q, i < b.size → b.Path (.stage i) q := by
    by_cases hi : i < b.size
    · obtain ⟨q, hq⟩ := hb.exists_path hi
      exact ⟨q, fun _ => hq⟩
    · exact ⟨[], fun h => absurd h hi⟩
  choose label hlabel using hpath
  refine ⟨label, hlabel, fun i hi => ⟨i, hlabel i hi⟩, fun i hi j hj heq => ?_, ?_⟩
  · have hj := hlabel j hj
    rw [← heq] at hj
    exact StageId.stage.inj (hd.path_inj (hlabel i hi) hj)
  · rintro q ⟨i, hi⟩
    exact ⟨i, hi.lt_size, (hlabel i hi.lt_size).unique hi⟩

theorem addFeature_eq {name : String} (h : b.Path (.stage i) links)
    (hname : b.hasFeature name = false) :
    b.addFeature name links = ⟨b.giveName i name, .ok (.stage i), []⟩ := by
  have hchain := hd.addChain_eq hb h
  have hexpose : b.expose name (.stage i) = ⟨b.giveName i name, .ok (), []⟩ := by
    have hlt : i < b.stages.size := h.lt_size
    have he := Array.getElem?_eq_getElem hlt
    unfold expose
    rw [hname, if_neg Bool.false_ne_true, entry_eq_ok_iff.2 he]
    rfl
  simp [addFeature, h.ne_nil, hname, hchain, hexpose, Except.map]

theorem trie_of_labels {prefixes : List (List Link)} {ends : List (List Link × StageId)}
    (hlabels : b.labels = {q | q ∈ prefixes}) (hends : ∀ x ∈ ends, b.Path x.2 x.1) :
    b.Trie prefixes ends := by
  obtain ⟨label, hlabel, hbij⟩ := exists_label hb hd
  rw [hlabels] at hbij
  refine ⟨?_, ⟨label, hlabel, hbij⟩, ?_, ?_, ?_, fun x hx => hd.addChain_eq hb (hends x hx), ?_⟩
  · rintro parent i hi j hj e e' he he' hij ⟨hname, hparams⟩
    refine link_ne_of_mem_childrenOf hb hd hi hj he he' hij ?_
    cases hl : e.link
    cases hl' : e'.link
    simp_all
  · exact size_eq_card hbij
  · intro x hx y hy
    have hpath := hends x hx
    have hpath' := hends y hy
    constructor
    · intro h
      rw [← h] at hpath'
      exact hpath.unique hpath'
    · intro h
      rw [← h] at hpath'
      exact hd.path_inj hpath hpath'
  · intro q hq
    have hmem : q ∈ b.labels := hlabels ▸ hq
    obtain ⟨i, hi⟩ := hmem
    exact ⟨i, hi.lt_size, hi, hd.addChain_eq hb hi⟩
  · intro x hx name i hid hname
    have hpath := hends x hx
    rw [hid] at hpath ⊢
    exact addFeature_eq hb hd hpath hname

end Trie

/-- Whatever chains a builder has seen, with or without names, its stages are the trie of the
prefixes up to which they got. -/
theorem trie_after (registry : Registry) (source : AnyFormat) (count : Nat) (calls : List Call)
    (hcalls : ∀ parent link, Call.add parent link ∉ calls) :
    ((fresh registry source count).after calls).Trie
      ((fresh registry source count).acceptances calls)
      ((fresh registry source count).endings calls) := by
  have hb := wellFormed_fresh registry source count
  have hd : (fresh registry source count).DistinctSiblings := by
    rintro parent link i j ⟨e, he, -⟩
    simp [fresh] at he
  have hlabels : (fresh registry source count).labels = ∅ := by
    refine Set.eq_empty_of_forall_notMem fun q hq => ?_
    obtain ⟨i, hi⟩ := hq
    exact Nat.not_lt_zero i hi.lt_size
  refine trie_of_labels (wellFormed_after registry source count calls) (hd.after hcalls hb) ?_
    fun x hx => path_of_mem_endings hb hx
  rw [labels_after hcalls hb, hlabels, Set.empty_union]

def forked : List Call :=
  [.addFeature "twice" [⟨"Diff", .empty⟩, ⟨"Diff", .empty⟩],
    .addFeature "mean" [⟨"Diff", .empty⟩, ⟨"Mean", .empty⟩],
    .addChain [⟨"Diff", .empty⟩, ⟨"Differ", .empty⟩]]

/-- The difference is one stage. -/
theorem trie_forked :
    ((fresh .builtin ⟨Signal, ⟨(4 : Nat), some .wideband⟩⟩ 1).after forked).size = 3 ∧
    ((fresh .builtin ⟨Signal, ⟨(4 : Nat), some .wideband⟩⟩ 1).after forked).Trie
      [[⟨"Diff", .empty⟩], [⟨"Diff", .empty⟩, ⟨"Diff", .empty⟩], [⟨"Diff", .empty⟩],
        [⟨"Diff", .empty⟩, ⟨"Mean", .empty⟩], [⟨"Diff", .empty⟩]]
      [([⟨"Diff", .empty⟩, ⟨"Diff", .empty⟩], .stage 1),
        ([⟨"Diff", .empty⟩, ⟨"Mean", .empty⟩], .stage 2)] := by
  have h := trie_after .builtin ⟨Signal, ⟨(4 : Nat), some .wideband⟩⟩ 1 forked (by simp [forked])
  have hprefixes : (fresh .builtin ⟨Signal, ⟨(4 : Nat), some .wideband⟩⟩ 1).acceptances forked =
      [[⟨"Diff", .empty⟩], [⟨"Diff", .empty⟩, ⟨"Diff", .empty⟩], [⟨"Diff", .empty⟩],
        [⟨"Diff", .empty⟩, ⟨"Mean", .empty⟩], [⟨"Diff", .empty⟩]] := by decide +kernel
  have hends : (fresh .builtin ⟨Signal, ⟨(4 : Nat), some .wideband⟩⟩ 1).endings forked =
      [([⟨"Diff", .empty⟩, ⟨"Diff", .empty⟩], .stage 1),
        ([⟨"Diff", .empty⟩, ⟨"Mean", .empty⟩], .stage 2)] := by decide +kernel
  rw [hprefixes, hends] at h
  exact ⟨h.size_eq.trans (by decide), h⟩

end Timbre.Builder
