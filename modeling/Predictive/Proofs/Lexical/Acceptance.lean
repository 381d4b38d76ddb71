/-
What automata accept. Running the sets of an automaton over a text decides whether
a path leads to a tag, and for the automaton of a pattern that is whether the
pattern matches. The deterministic automaton goes on as long as some path does, and
where it stops it carries the winner among the tags at the ends of the paths.
-/

import Mathlib.Tactic
import Predictive.Proofs.Lexical.Confinement
import Predictive.Proofs.Lexical.Subset

namespace Predictive

namespace Nfa

variable {nfa : Nfa} {text : List Char}

/-! ### The nondeterministic automaton -/

theorem accepts_eq_after? (nfa : Nfa) (set : List Nat) (text : List Char) :
    nfa.accepts set text = (nfa.after? set text).any fun final => final.any nfa.isAccepting := by
  induction text generalizing set with
  | nil => rfl
  | cons char rest ih =>
      simp only [accepts, after?]
      split
      · rfl
      · exact ih _

theorem any_isAccepting_iff {set : List Nat} :
    set.any nfa.isAccepting = true ↔ ∃ tag, tag ∈ set.filterMap nfa.tagOf := by
  simp only [List.any_eq_true, List.mem_filterMap, isAccepting, Option.isSome_iff_exists]
  exact ⟨fun ⟨id, member, tag, tagged⟩ => ⟨tag, id, member, tagged⟩,
    fun ⟨tag, id, member, tagged⟩ => ⟨id, member, tag, tagged⟩⟩

theorem isMatch_iff_tagged (nfa : Nfa) (text : List Char) :
    nfa.isMatch text = true ↔ ∃ tag, nfa.Tagged text tag := by
  have ends := nfa.after?_closure [nfa.start] text
  rw [isMatch, accepts_eq_after?]
  cases after : nfa.after? (nfa.closure [nfa.start]) text with
  | some set =>
      rw [after] at ends
      rw [Option.any_some, any_isAccepting_iff]
      exact exists_congr fun tag => mem_tags_iff ends
  | none =>
      rw [after] at ends
      refine ⟨nofun, ?_⟩
      rintro ⟨tag, id, path, tagged⟩
      exact (ends id ⟨lt_size_of_tagOf tagged, _, List.mem_singleton_self _, path⟩).elim

/-! ### The automaton of one pattern -/

theorem ofToken_offers (kind : String) (pattern : Pattern) :
    (ofToken kind pattern).Offers (ofToken kind pattern).start 0 ⟨kind, pattern, 0⟩ := by
  have compiled := Arena.fragment_compiled #[] pattern
  have kept : ∀ id, id ≠ (Arena.fragment #[] pattern).2.accept →
      (ofToken kind pattern).stateAt id = (Arena.fragment #[] pattern).1.stateAt id :=
    fun id different => Arena.stateAt_setTag_of_ne _ different
  refine ⟨(Arena.fragment #[] pattern).2, 0, (Arena.fragment #[] pattern).1.size, rfl,
    compiled.recognizes _ ?_, ?_, ?_⟩
  · intro id _ _ different
    rw [kept id different]
    exact ⟨rfl, rfl⟩
  · have accept := Arena.stateAt_setTag_self ⟨kind, 0, 0⟩ compiled.accept_inside.2
    rw [compiled.bare] at accept
    exact accept
  · intro id low _ different
    rw [tagOf, kept id different]
    exact compiled.untagged id low

theorem ofToken_tagged_iff {kind : String} {pattern : Pattern} {tag : AcceptTag} :
    (ofToken kind pattern).Tagged text tag ↔ pattern.Matches text ∧ tag = ⟨kind, 0, 0⟩ := by
  have offers := ofToken_offers kind pattern
  constructor
  · rintro ⟨id, path, tagged⟩
    obtain ⟨steps, walk⟩ := path.walk
    exact offers.tag_of_walk walk tagged
  · rintro ⟨matched, rfl⟩
    obtain ⟨inner, low, high, same, part, accept, -⟩ := offers
    refine ⟨inner.accept, same ▸ part.path matched, ?_⟩
    rw [tagOf, accept]

/-- The automaton of a pattern matches exactly the texts of the pattern's language. -/
theorem isMatch_ofPattern_iff_matches (pattern : Pattern) (text : List Char) :
    (ofPattern pattern).isMatch text = true ↔ pattern.Matches text := by
  rw [isMatch_iff_tagged]
  constructor
  · rintro ⟨tag, tagged⟩
    exact (ofToken_tagged_iff.mp tagged).1
  · intro matched
    exact ⟨_, ofToken_tagged_iff.mpr ⟨matched, rfl⟩⟩

/-! ### Winning tags -/

theorem Built.tag_unique (built : nfa.Built) {left right : AcceptTag}
    (inLeft : nfa.Tagged text left) (inRight : nfa.Tagged text right)
    (same : left.index = right.index) : left = right := by
  have single : ∀ kind pattern, (ofToken kind pattern).Tagged text left →
      (ofToken kind pattern).Tagged text right → left = right := by
    intro kind pattern first second
    rw [(ofToken_tagged_iff.mp first).2, (ofToken_tagged_iff.mp second).2]
  cases built with
  | pattern pattern => exact single _ pattern inLeft inRight
  | token kind pattern => exact single kind pattern inLeft inRight
  | grammar grammar =>
      obtain ⟨leftIndex, leftRule, leftFound, -, rfl⟩ :=
        (ofGrammar_tagged_iff grammar text left).mp inLeft
      obtain ⟨rightIndex, rightRule, rightFound, -, rfl⟩ :=
        (ofGrammar_tagged_iff grammar text right).mp inRight
      change leftIndex = rightIndex at same
      subst same
      rw [leftFound] at rightFound
      cases rightFound
      rfl

theorem wins_of_bestTag {tags : List AcceptTag} (members : ∀ tag, tag ∈ tags ↔ nfa.Tagged text tag)
    {tag : AcceptTag} (best : Subset.bestTag tags = some tag) : nfa.Wins text tag := by
  obtain ⟨member, unbeaten⟩ := Subset.bestTag_eq_some best
  refine ⟨(members tag).mp member, fun other tagged => ?_⟩
  have notBeaten := unbeaten other ((members other).mpr tagged)
  rw [Subset.beats_iff] at notBeaten
  omega

theorem Built.wins_unique (built : nfa.Built) {left right : AcceptTag} (first : nfa.Wins text left)
    (second : nfa.Wins text right) : left = right := by
  have below := first.best right second.reached
  have above := second.best left first.reached
  exact built.tag_unique first.reached second.reached (by omega)

theorem Built.bestTag_eq_some_iff (built : nfa.Built) {tags : List AcceptTag}
    (members : ∀ tag, tag ∈ tags ↔ nfa.Tagged text tag) (tag : AcceptTag) :
    Subset.bestTag tags = some tag ↔ nfa.Wins text tag := by
  constructor
  · exact wins_of_bestTag members
  · intro wins
    cases best : Subset.bestTag tags with
    | none =>
        have member := (members tag).mpr wins.reached
        rw [Subset.bestTag_eq_none best] at member
        cases member
    | some other => rw [built.wins_unique (wins_of_bestTag members best) wins]

theorem bestTag_eq_none_iff {tags : List AcceptTag}
    (members : ∀ tag, tag ∈ tags ↔ nfa.Tagged text tag) :
    Subset.bestTag tags = none ↔ ∀ tag, ¬nfa.Tagged text tag := by
  constructor
  · intro best tag tagged
    have member := (members tag).mpr tagged
    rw [Subset.bestTag_eq_none best] at member
    cases member
  · intro untagged
    cases best : Subset.bestTag tags with
    | none => rfl
    | some tag => exact (untagged tag (wins_of_bestTag members best).reached).elim

end Nfa

/-! ### The deterministic automaton -/

namespace Dfa

variable {nfa : Nfa}

theorem isSome_tagOf (nfa : Nfa) (set : List Nat) :
    (Subset.tagOf nfa set).isSome = set.any nfa.isAccepting := by
  rw [Bool.eq_iff_iff, Nfa.any_isAccepting_iff, Subset.tagOf]
  cases set.filterMap nfa.tagOf with
  | nil => exact ⟨nofun, fun ⟨tag, member⟩ => nomatch member⟩
  | cons tag rest => exact ⟨fun _ => ⟨tag, List.mem_cons_self⟩, fun _ => rfl⟩

theorem isMatch_ofNfa (nfa : Nfa) (text : List Char) :
    (ofNfa nfa).isMatch text = nfa.isMatch text := by
  have runs := run?_ofNfa_after nfa text
  rw [Nfa.isMatch, Nfa.accepts_eq_after?, isMatch]
  cases after : nfa.after? (nfa.closure [nfa.start]) text with
  | none =>
      rw [after] at runs
      simp only [runs]
      rfl
  | some set =>
      rw [after] at runs
      obtain ⟨id, state, ran, found, accept⟩ := runs
      simp only [ran, isAccepting, acceptOf, found, Option.bind_some, accept, isSome_tagOf,
        Option.any_some]

/-- The deterministic automaton of a built one can be followed along a text exactly
when some path reads it. The state it leads to carries the tag that wins among those
at the ends of such paths, and none when there are none. -/
theorem run?_ofNfa_iff_path (built : nfa.Built) (text : List Char) :
    ((ofNfa nfa).run? 0 text ≠ none ↔ ∃ id, nfa.Path nfa.start text id) ∧
      (∀ id, (ofNfa nfa).run? 0 text = some id →
        ∃ state, (ofNfa nfa).states[id]? = some state ∧
          (∀ tag, state.accept = some tag ↔ nfa.Wins text tag) ∧
          (state.accept = none ↔ ∀ tag, ¬nfa.Tagged text tag)) ∧
      (ofNfa nfa).isMatch text = nfa.isMatch text := by
  have closed := built.closed
  have runs := run?_ofNfa_after nfa text
  have ends := nfa.after?_closure [nfa.start] text
  -- Sets hold numbers of states only, so a path counts because it ends in a state.
  have reached : ∀ id, nfa.Path nfa.start text id → nfa.Ends [nfa.start] text id :=
    fun id path => ⟨path.lt_size closed closed.start, _, List.mem_singleton_self _, path⟩
  cases after : nfa.after? (nfa.closure [nfa.start]) text with
  | none =>
      rw [after] at runs ends
      refine ⟨⟨fun defined => (defined runs).elim, ?_⟩, ?_, isMatch_ofNfa nfa text⟩
      · rintro ⟨id, path⟩
        exact (ends id (reached id path)).elim
      · intro id ran
        rw [runs] at ran
        cases ran
  | some set =>
      rw [after] at runs ends
      obtain ⟨id, state, ran, found, accept⟩ := runs
      have members : ∀ tag, tag ∈ set.filterMap nfa.tagOf ↔ nfa.Tagged text tag :=
        fun tag => Nfa.mem_tags_iff ends
      refine ⟨⟨fun _ => ?_, fun _ => ?_⟩, ?_, isMatch_ofNfa nfa text⟩
      · obtain ⟨final, member⟩ :=
          closed.exists_mem_after? text (List.mem_singleton_self _) closed.start after
        obtain ⟨-, source, isStart, path⟩ := (ends final).mp member
        exact ⟨final, List.mem_singleton.mp isStart ▸ path⟩
      · rw [ran]
        exact Option.some_ne_none id
      · intro other otherRan
        rw [ran] at otherRan
        cases otherRan
        refine ⟨state, found, fun tag => ?_, ?_⟩
        · rw [accept, Subset.tagOf]
          exact built.bestTag_eq_some_iff members tag
        · rw [accept, Subset.tagOf]
          exact Nfa.bestTag_eq_none_iff members

/-- A range across the surrogates, a literal inside it that is preferred, and a
reversed range that matches nothing. -/
def acrossSurrogates : LexicalGrammar :=
  ⟨[⟨"wide", .range '\ud7ff' '\ue000', 0⟩, ⟨"upper", .literal "\ue000", 1⟩,
    ⟨"reversed", .range 'z' 'a', 5⟩]⟩

set_option maxRecDepth 4000 in
theorem wins_acrossSurrogates :
    (Nfa.ofGrammar acrossSurrogates).Built ∧
      (ofNfa (.ofGrammar acrossSurrogates)).run? 0 ['\ue000'] = some 2 ∧
      (Nfa.ofGrammar acrossSurrogates).Wins ['\ue000'] ⟨"upper", 1, 1⟩ := by
  have built := Nfa.Built.grammar acrossSurrogates
  have ran : (ofNfa (.ofGrammar acrossSurrogates)).run? 0 ['\ue000'] = some 2 := by cbv
  have accept : (ofNfa (.ofGrammar acrossSurrogates)).acceptOf 2 = some ⟨"upper", 1, 1⟩ := by cbv
  obtain ⟨state, found, best, -⟩ := (run?_ofNfa_iff_path built ['\ue000']).2.1 2 ran
  rw [acceptOf, found] at accept
  exact ⟨built, ran, (best _).mp accept⟩

end Dfa

end Predictive
