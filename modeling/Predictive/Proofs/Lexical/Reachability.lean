/-
Which states of a pattern's automaton can be reached from its start. A state that is
added to an arena is led to, except for the accept state of a class without
characters and of an alternative without items: no edge is ever added to these. So
some state is out of reach exactly where the pattern has such a part.
-/

import Mathlib.Logic.Relation
import Predictive.Proofs.Lexical.Confinement

namespace Predictive

/-! ### Parts that lead nowhere -/

namespace Pattern

/-- The part stands in the pattern at some depth, or is the pattern itself. -/
inductive Within (part : Pattern) : Pattern → Prop where
  | self : Within part part
  | sequence {items : List Pattern} {item : Pattern} (member : item ∈ items)
      (inner : Within part item) : Within part (.sequence items)
  | alternative {items : List Pattern} {item : Pattern} (member : item ∈ items)
      (inner : Within part item) : Within part (.alternative items)
  | optional {body : Pattern} (inner : Within part body) : Within part (.optional body)
  | zeroOrMore {body : Pattern} (inner : Within part body) : Within part (.zeroOrMore body)
  | oneOrMore {body : Pattern} (inner : Within part body) : Within part (.oneOrMore body)

/-- A choice that offers nothing: a set without characters, an exclusion that leaves
nothing of its domain, or an alternative without items. -/
inductive Dead : Pattern → Prop where
  | set {chars : CharSet} (empty : ∀ char, chars.contains char = false) : Dead (.set chars)
  | anyExcept {excluded : CharSet} {domain : CharDomain}
      (covered : ∀ char, domain.contains char = true → excluded.contains char = true) :
      Dead (.anyExcept excluded domain)
  | alternative : Dead (.alternative [])

def Live (pattern : Pattern) : Prop := ∀ part : Pattern, part.Within pattern → ¬part.Dead

variable {items : List Pattern} {body : Pattern}

theorem live_literal (text : String) : (literal text).Live := by
  intro part within dead
  cases within
  cases dead

theorem live_range (lo hi : Char) : (range lo hi).Live := by
  intro part within dead
  cases within
  cases dead

theorem live_any (domain : CharDomain) : (any domain).Live := by
  intro part within dead
  cases within
  cases dead

theorem eq_nil_iff_of_canonical {ranges : List CharRange} (canonical : Canonical ranges) :
    ranges = [] ↔ ∀ char, ¬CharSet.Holds ranges char := by
  constructor
  · rintro rfl char
    exact CharSet.not_holds_nil
  · intro free
    cases ranges with
    | nil => rfl
    | cons first rest => exact (free first.lo canonical.holds_lo).elim

theorem live_set_iff {chars : CharSet} : (set chars).Live ↔ chars.ranges ≠ [] := by
  have empty : chars.ranges = [] ↔ ∀ char, chars.contains char = false := by
    rw [eq_nil_iff_of_canonical chars.canonical]
    simp only [← CharSet.contains_iff_holds, Bool.not_eq_true]
  rw [Ne, empty]
  constructor
  · exact fun live none => live _ .self (.set none)
  · intro some part within dead
    cases within
    cases dead with
    | set none => exact some none

theorem live_anyExcept_iff {excluded : CharSet} {domain : CharDomain} :
    (anyExcept excluded domain).Live ↔ excluded.complementIn domain ≠ [] := by
  have covered : excluded.complementIn domain = [] ↔
      ∀ char, domain.contains char = true → excluded.contains char = true := by
    rw [eq_nil_iff_of_canonical (excluded.canonical_complementIn domain)]
    simp only [CharSet.holds_complementIn_iff, not_and, Bool.not_eq_false]
  rw [Ne, covered]
  constructor
  · exact fun live all => live _ .self (.anyExcept all)
  · intro some part within dead
    cases within
    cases dead with
    | anyExcept all => exact some all

theorem live_sequence_iff : (sequence items).Live ↔ ∀ item ∈ items, item.Live := by
  constructor
  · exact fun live item member part within => live part (.sequence member within)
  · intro each part within dead
    cases within with
    | self => cases dead
    | sequence member inner => exact each _ member part inner dead

theorem live_alternative_iff :
    (alternative items).Live ↔ items ≠ [] ∧ ∀ item ∈ items, item.Live := by
  constructor
  · intro live
    refine ⟨?_, fun item member part within => live part (.alternative member within)⟩
    rintro rfl
    exact live _ .self .alternative
  · rintro ⟨some, each⟩ part within dead
    cases within with
    | self =>
        cases dead
        exact some rfl
    | alternative member inner => exact each _ member part inner dead

theorem live_optional_iff : (optional body).Live ↔ body.Live := by
  constructor
  · exact fun live part within => live part (.optional within)
  · intro live part within dead
    cases within with
    | self => cases dead
    | optional inner => exact live part inner dead

theorem live_zeroOrMore_iff : (zeroOrMore body).Live ↔ body.Live := by
  constructor
  · exact fun live part within => live part (.zeroOrMore within)
  · intro live part within dead
    cases within with
    | self => cases dead
    | zeroOrMore inner => exact live part inner dead

theorem live_oneOrMore_iff : (oneOrMore body).Live ↔ body.Live := by
  constructor
  · exact fun live part within => live part (.oneOrMore within)
  · intro live part within dead
    cases within with
    | self => cases dead
    | oneOrMore inner => exact live part inner dead

end Pattern

namespace Arena

variable {arena middle grown : Arena} {source target id : Nat}

/-! ### Edges of an arena -/

def Leads (arena : Arena) (source target : Nat) : Prop := (arena.stateAt source).LeadsTo target

def Reaches (arena : Arena) : Nat → Nat → Prop := Relation.ReflTransGen arena.Leads

def Unentered (arena : Arena) (id : Nat) : Prop := ∀ source, ¬arena.Leads source id

def UnenteredFrom (arena : Arena) (lo id : Nat) : Prop :=
  ∀ source, lo ≤ source → ¬arena.Leads source id

def Widens (arena grown : Arena) : Prop :=
  ∀ source target, arena.Leads source target → grown.Leads source target

theorem Widens.refl (arena : Arena) : Widens arena arena := fun _ _ leads => leads

theorem Widens.trans (first : Widens arena middle) (second : Widens middle grown) :
    Widens arena grown := fun source target leads => second _ _ (first source target leads)

theorem Widens.reaches (widens : Widens arena grown) (reaches : arena.Reaches source target) :
    grown.Reaches source target := Relation.ReflTransGen.mono widens _ _ reaches

theorem Leads.lt_size (leads : arena.Leads source target) : source < arena.size := by
  apply Nat.lt_of_not_le
  intro outside
  rw [Leads, stateAt_of_size_le outside] at leads
  exact NfaState.not_leadsTo_blank target leads

theorem leads_push_iff {state : NfaState} :
    Leads (arena.push state) source target ↔
      arena.Leads source target ∨ source = arena.size ∧ state.LeadsTo target := by
  rw [Leads, stateAt_push]
  split
  case isTrue last =>
    constructor
    · exact fun leads => Or.inr ⟨last, leads⟩
    · rintro (old | ⟨-, leads⟩)
      · exact absurd last (Nat.ne_of_lt old.lt_size)
      · exact leads
  case isFalse old =>
    exact ⟨Or.inl, fun either => either.resolve_right fun new => old new.1⟩

theorem leads_push_blank_iff :
    Leads (arena.push .blank) source target ↔ arena.Leads source target := by
  rw [leads_push_iff, or_iff_left fun new => NfaState.not_leadsTo_blank target new.2]

theorem leads_link_iff {linking added : Nat} (inRange : linking < arena.size) :
    (arena.link linking added).Leads source target ↔
      arena.Leads source target ∨ source = linking ∧ target = added := by
  by_cases linked : source = linking
  · subst linked
    simp only [Leads, stateAt_link_self _ inRange, NfaState.LeadsTo, List.mem_append,
      List.mem_singleton, true_and]
    exact or_right_comm
  · rw [Leads, stateAt_link_of_ne _ linked, or_iff_left fun new => linked new.1]
    rfl

theorem widens_link (inRange : source < arena.size) : Widens arena (arena.link source target) :=
  fun _ _ leads => (leads_link_iff inRange).mpr (Or.inl leads)

theorem leads_link (inRange : source < arena.size) :
    (arena.link source target).Leads source target :=
  (leads_link_iff inRange).mpr (Or.inr ⟨rfl, rfl⟩)

theorem unentered_iff : arena.Unentered id ↔ arena.UnenteredFrom 0 id :=
  ⟨fun unentered source _ => unentered source,
    fun unentered source => unentered source (Nat.zero_le source)⟩

theorem UnenteredFrom.link {lo : Nat} (unentered : arena.UnenteredFrom lo id)
    (inRange : source < arena.size) (different : id ≠ target) :
    (arena.link source target).UnenteredFrom lo id := by
  intro other low leads
  rcases (leads_link_iff inRange).mp leads with old | new
  · exact unentered other low old
  · exact different new.2

theorem Unentered.link (unentered : arena.Unentered id) (inRange : source < arena.size)
    (different : id ≠ target) : (arena.link source target).Unentered id :=
  unentered_iff.mpr ((unentered_iff.mp unentered).link inRange different)

theorem Confined.unenteredFrom {lo hi : Nat} (confined : arena.Confined lo hi)
    (outside : hi ≤ id) : arena.UnenteredFrom lo id := fun source low leads =>
  Nat.not_lt_of_le outside (confined source id low leads).2

theorem unentered_of_size_le (confined : arena.Confined 0 arena.size) (outside : arena.size ≤ id) :
    arena.Unentered id := unentered_iff.mpr (confined.unenteredFrom outside)

theorem confined_self (arena : Arena) : arena.Confined arena.size arena.size := by
  intro source target outside edge
  rw [stateAt_of_size_le outside] at edge
  exact absurd edge (NfaState.not_leadsTo_blank target)

theorem fragment_confined_self (arena : Arena) (pattern : Pattern) :
    (arena.fragment pattern).1.Confined arena.size (arena.fragment pattern).1.size :=
  fragment_confined arena pattern arena.confined_self (Nat.le_refl _)

theorem fragments_confined_self (arena : Arena) (items : List Pattern) :
    (arena.fragments items).1.Confined arena.size (arena.fragments items).1.size ∧
      ∀ part ∈ (arena.fragments items).2,
        arena.size ≤ part.start ∧ part.start < (arena.fragments items).1.size :=
  fragments_confined arena items arena.confined_self (Nat.le_refl _)

theorem widens_of_old (old : ∀ id < arena.size, grown.stateAt id = arena.stateAt id) :
    Widens arena grown := by
  intro source target leads
  rwa [Leads, old source leads.lt_size]

theorem UnenteredFrom.of_old {lo hi : Nat} (unentered : arena.UnenteredFrom lo id)
    (old : ∀ id < arena.size, grown.stateAt id = arena.stateAt id)
    (confined : grown.Confined arena.size hi) (inRange : id < arena.size) :
    grown.UnenteredFrom lo id := by
  intro source low leads
  by_cases isOld : source < arena.size
  · rw [Leads, old source isOld] at leads
    exact unentered source low leads
  · exact Nat.not_le_of_lt inRange (confined source id (Nat.le_of_not_lt isOld) leads).1

theorem Unentered.of_old (unentered : arena.Unentered id)
    (old : ∀ id < arena.size, grown.stateAt id = arena.stateAt id) {hi : Nat}
    (confined : grown.Confined arena.size hi) (inRange : id < arena.size) :
    grown.Unentered id :=
  unentered_iff.mpr ((unentered_iff.mp unentered).of_old old confined inRange)

/-! ### Joined parts -/

variable {first : Fragment} {rest parts : List Fragment}

theorem widens_joinAll (inRange : ∀ part ∈ parts, part.accept < arena.size) :
    Widens arena (arena.joinAll parts) := by
  fun_induction joinAll arena parts with
  | case1 arena first second rest ih =>
      obtain ⟨here, others⟩ := List.forall_mem_cons.mp inRange
      refine (widens_link here).trans (ih ?_)
      simpa only [size_link] using others
  | case2 => exact .refl _

theorem UnenteredFrom.joinAll {lo : Nat} (unentered : arena.UnenteredFrom lo id)
    (inRange : ∀ part ∈ parts, part.accept < arena.size)
    (different : ∀ part ∈ parts.tail, id ≠ part.start) :
    (arena.joinAll parts).UnenteredFrom lo id := by
  fun_induction Arena.joinAll arena parts with
  | case1 arena first second rest ih =>
      obtain ⟨here, others⟩ := List.forall_mem_cons.mp inRange
      obtain ⟨apart, further⟩ := List.forall_mem_cons.mp different
      refine ih (unentered.link here apart) ?_ further
      simpa only [size_link] using others
  | case2 => exact unentered

theorem Unentered.joinAll (unentered : arena.Unentered id)
    (inRange : ∀ part ∈ parts, part.accept < arena.size)
    (different : ∀ part ∈ parts, id ≠ part.start) : (arena.joinAll parts).Unentered id :=
  unentered_iff.mpr ((unentered_iff.mp unentered).joinAll inRange fun part inTail =>
    different part (List.mem_of_mem_tail inTail))

theorem reaches_joinAll (inRange : ∀ part ∈ first :: rest, part.accept < arena.size)
    (through : ∀ part ∈ first :: rest, arena.Reaches part.start part.accept) :
    ∀ part ∈ first :: rest, (arena.joinAll (first :: rest)).Reaches first.start part.start := by
  induction rest generalizing arena first with
  | nil =>
      intro part member
      rw [List.mem_singleton.mp member]
      exact .refl
  | cons second rest ih =>
      obtain ⟨here, others⟩ := List.forall_mem_cons.mp inRange
      obtain ⟨across, onward⟩ := List.forall_mem_cons.mp through
      have linked : Widens arena (arena.link first.accept second.start) := widens_link here
      have stillInRange : ∀ part ∈ second :: rest,
          part.accept < (arena.link first.accept second.start).size := by
        simpa only [size_link] using others
      have later := ih stillInRange fun part member => linked.reaches (onward part member)
      have toSecond : (arena.link first.accept second.start).Reaches first.start second.start :=
        (linked.reaches across).tail (leads_link here)
      intro part member
      rcases List.mem_cons.mp member with rfl | inRest
      · exact .refl
      · exact ((widens_joinAll stillInRange).reaches toSecond).trans (later part inRest)

/-! ### Reached and unentered states -/

/-- The states that a pattern adds are reached from its start when no part is dead;
otherwise no edge leads to one of them, which is not the start. -/
structure Spanned (arena grown : Arena) (pattern : Pattern) (whole : Fragment) : Prop where
  reached : pattern.Live → ∀ id, arena.size ≤ id → id < grown.size → grown.Reaches whole.start id
  orphaned : ¬pattern.Live →
    ∃ id, arena.size ≤ id ∧ id < grown.size ∧ id ≠ whole.start ∧ grown.Unentered id

theorem spanned_hop {pattern : Pattern} {ranges : List CharRange}
    (confined : arena.Confined 0 arena.size) (live : pattern.Live ↔ ranges ≠ []) :
    Spanned arena (arena.hop ranges).1 pattern (arena.hop ranges).2 := by
  have size : (arena.hop ranges).1.size = arena.size + 2 := by
    simp only [hop, Array.size_push]
  have leads : ∀ source target, (arena.hop ranges).1.Leads source target ↔
      arena.Leads source target ∨
        source = arena.size ∧ ranges ≠ [] ∧ arena.size + 1 = target := by
    intro source target
    have some : (∃ range, range ∈ ranges) ↔ ranges ≠ [] := by
      rw [Ne, List.eq_nil_iff_forall_not_mem, not_forall_not]
    rw [hop, leads_push_blank_iff, leads_push_iff, ← some]
    simp only [NfaState.LeadsTo, NfaState.blank, List.not_mem_nil, false_or, List.mem_map,
      exists_exists_and_eq_and, exists_and_right]
  constructor
  · intro alive id low high
    by_cases isStart : id = arena.size
    · rw [isStart]
      exact .refl
    · have isAccept : arena.size + 1 = id := by omega
      exact .single ((leads _ _).mpr (Or.inr ⟨rfl, live.mp alive, isAccept⟩))
  · intro dead
    refine ⟨arena.size + 1, Nat.le_succ _, by omega, Nat.succ_ne_self _, ?_⟩
    intro source edge
    rcases (leads _ _).mp edge with old | ⟨-, some, -⟩
    · exact unentered_of_size_le confined (Nat.le_succ _) source old
    · exact dead (live.mpr some)

theorem widens_chain (arena : Arena) (chars : List Char) : Widens arena (arena.chain chars) :=
  widens_of_old fun _ old => stateAt_chain_of_lt chars old

theorem reaches_chain (arena : Arena) (chars : List Char) :
    ∀ id, arena.size ≤ id → id ≤ arena.size + chars.length →
      (arena.chain chars).Reaches arena.size id := by
  induction chars generalizing arena with
  | nil =>
      intro id low high
      rw [Nat.le_antisymm high low]
      exact .refl
  | cons char rest ih =>
      intro id low high
      by_cases isFirst : id = arena.size
      · rw [isFirst]
        exact .refl
      · rw [List.length_cons] at high
        have onward := ih (arena.push ⟨[⟨⟨char, char⟩, arena.size + 1⟩], [], none⟩) id
          (by rw [Array.size_push]; omega) (by rw [Array.size_push]; omega)
        rw [Array.size_push] at onward
        refine .head (widens_chain _ rest _ _ (leads_push_iff.mpr (Or.inr ⟨rfl, ?_⟩))) onward
        exact Or.inr ⟨_, List.mem_singleton_self _, rfl⟩

theorem spanned_literal (arena : Arena) (text : String) :
    Spanned arena (arena.chain text.toList) (.literal text)
      ⟨arena.size, arena.size + text.toList.length⟩ := by
  constructor
  · intro _ id low high
    rw [size_chain] at high
    exact reaches_chain arena text.toList id low (Nat.le_of_lt_succ high)
  · exact fun dead => absurd (Pattern.live_literal text) dead

theorem spanned_sequenceNil (arena : Arena) :
    Spanned arena (arena.push .blank) (.sequence []) ⟨arena.size, arena.size⟩ := by
  constructor
  · intro _ id low high
    rw [Array.size_push] at high
    rw [Nat.le_antisymm (Nat.le_of_lt_succ high) low]
    exact .refl
  · exact fun dead => absurd (Pattern.live_sequence_iff.mpr (List.forall_mem_nil _)) dead

/-- The states that several patterns add, still unjoined, are reached from the starts of
the parts when no pattern has a dead part; otherwise one of them is unentered, and is
no start. -/
structure SpannedAll (arena grown : Arena) (items : List Pattern) (parts : List Fragment) :
    Prop where
  reached : (∀ item ∈ items, item.Live) →
    ∀ id, arena.size ≤ id → id < grown.size → ∃ part ∈ parts, grown.Reaches part.start id
  crossed : (∀ item ∈ items, item.Live) → ∀ part ∈ parts, grown.Reaches part.start part.accept
  orphaned : ¬(∀ item ∈ items, item.Live) →
    ∃ id, arena.size ≤ id ∧ id < grown.size ∧ (∀ part ∈ parts, id ≠ part.start) ∧
      grown.Unentered id

theorem spannedAll_nil (arena : Arena) : SpannedAll arena arena [] [] :=
  ⟨fun _ _ low high => absurd high (Nat.not_lt_of_le low), fun _ => List.forall_mem_nil _,
    fun dead => absurd (List.forall_mem_nil _) dead⟩

theorem spannedAll_cons {item : Pattern} {items : List Pattern}
    (compiled : Compiled arena middle item first) (laid : Laid middle grown items rest)
    (confined : grown.Confined middle.size grown.size)
    (starts : ∀ part ∈ rest, middle.size ≤ part.start)
    (head : Spanned arena middle item first) (tail : SpannedAll middle grown items rest) :
    SpannedAll arena grown (item :: items) (first :: rest) := by
  have grows := laid.size_le
  have widens : Widens middle grown := widens_of_old laid.old
  have start := compiled.start_inside
  have accept := compiled.accept_inside
  refine ⟨?_, ?_, ?_⟩
  · intro live id low high
    obtain ⟨itemLive, othersLive⟩ := List.forall_mem_cons.mp live
    by_cases inHead : id < middle.size
    · exact ⟨first, List.mem_cons_self, widens.reaches (head.reached itemLive id low inHead)⟩
    · obtain ⟨part, member, reaches⟩ := tail.reached othersLive id (Nat.le_of_not_lt inHead) high
      exact ⟨part, List.mem_cons_of_mem _ member, reaches⟩
  · intro live
    obtain ⟨itemLive, othersLive⟩ := List.forall_mem_cons.mp live
    have across := head.reached itemLive first.accept accept.1 accept.2
    exact List.forall_mem_cons.mpr ⟨widens.reaches across, tail.crossed othersLive⟩
  · intro dead
    rw [List.forall_mem_cons, not_and_or] at dead
    rcases dead with itemDead | othersDead
    · obtain ⟨id, low, high, notStart, unentered⟩ := head.orphaned itemDead
      refine ⟨id, low, by omega, List.forall_mem_cons.mpr ⟨notStart, ?_⟩, ?_⟩
      · intro part member
        have above := starts part member
        omega
      · exact unentered.of_old laid.old confined high
    · obtain ⟨id, low, high, notStart, unentered⟩ := tail.orphaned othersDead
      exact ⟨id, by omega, high, List.forall_mem_cons.mpr ⟨by omega, notStart⟩, unentered⟩

theorem SpannedAll.joined {items : List Pattern} {accept : Nat}
    (spanned : SpannedAll arena grown items (first :: rest))
    (inRange : ∀ part ∈ first :: rest, part.accept < grown.size) :
    Spanned arena (grown.joinAll (first :: rest)) (.sequence items) ⟨first.start, accept⟩ := by
  have widens := widens_joinAll inRange
  constructor
  · intro live id low high
    rw [size_joinAll] at high
    have each := Pattern.live_sequence_iff.mp live
    obtain ⟨part, member, reaches⟩ := spanned.reached each id low high
    exact (reaches_joinAll inRange (spanned.crossed each) part member).trans
      (widens.reaches reaches)
  · intro dead
    rw [Pattern.live_sequence_iff] at dead
    obtain ⟨id, low, high, notStart, unentered⟩ := spanned.orphaned dead
    exact ⟨id, low, by rwa [size_joinAll], notStart first List.mem_cons_self,
      unentered.joinAll inRange notStart⟩

/-- Patterns have been added between two old states. When none has a dead part, the new
states are reached from the first of the two, and so is the other one if there is a
pattern; otherwise a new state is unentered. -/
structure Fanned (arena grown : Arena) (outer : Fragment) (items : List Pattern) : Prop where
  widens : Widens arena grown
  untouched : ∀ id < arena.size, id ≠ outer.accept → arena.Unentered id → grown.Unentered id
  reached : (∀ item ∈ items, item.Live) →
    ∀ id, arena.size ≤ id → id < grown.size → grown.Reaches outer.start id
  crossed : items ≠ [] → (∀ item ∈ items, item.Live) → grown.Reaches outer.start outer.accept
  orphaned : ¬(∀ item ∈ items, item.Live) →
    ∃ id, arena.size ≤ id ∧ id < grown.size ∧ grown.Unentered id

theorem fanned_nil (arena : Arena) (outer : Fragment) : Fanned arena arena outer [] :=
  ⟨.refl arena, fun _ _ _ unentered => unentered,
    fun _ _ low high => absurd high (Nat.not_lt_of_le low), fun some => absurd rfl some,
    fun dead => absurd (List.forall_mem_nil _) dead⟩

theorem fanned_cons {outer inner : Fragment} {item : Pattern} {items : List Pattern}
    (startInside : outer.start < arena.size) (acceptInside : outer.accept < arena.size)
    (compiled : Compiled arena middle item inner)
    (confined : middle.Confined arena.size middle.size) (head : Spanned arena middle item inner)
    (grows : middle.size ≤ grown.size)
    (tail : Fanned (middle.fan outer inner) grown outer items) :
    Fanned arena grown outer (item :: items) := by
  have start := compiled.start_inside
  have accept := compiled.accept_inside
  have startInRange : outer.start < middle.size := by omega
  have acceptInRange : inner.accept < (middle.link outer.start inner.start).size := by
    rw [size_link]
    exact accept.2
  have size := size_fan middle outer inner
  have fans : Widens middle (middle.fan outer inner) :=
    (widens_link startInRange).trans (widens_link acceptInRange)
  have widens : Widens middle grown := fans.trans tail.widens
  have enters : grown.Leads outer.start inner.start :=
    tail.widens _ _ (widens_link acceptInRange _ _ (leads_link startInRange))
  have leaves : grown.Leads inner.accept outer.accept :=
    tail.widens _ _ (leads_link acceptInRange)
  have within : item.Live → ∀ id, arena.size ≤ id → id < middle.size →
      grown.Reaches outer.start id := fun live id low high =>
    .head enters (widens.reaches (head.reached live id low high))
  have kept : ∀ id, id ≠ inner.start → id ≠ outer.accept → id < middle.size →
      middle.Unentered id → grown.Unentered id := fun id notStart notAccept inRange unentered =>
    tail.untouched id (by rwa [size]) notAccept
      ((unentered.link startInRange notStart).link acceptInRange notAccept)
  have tailReached := tail.reached
  have tailOrphaned := tail.orphaned
  rw [size] at tailReached tailOrphaned
  refine ⟨?_, ?_, ?_, ?_, ?_⟩
  · exact (widens_of_old compiled.old).trans widens
  · intro id inRange notAccept unentered
    exact kept id (by omega) notAccept (by omega) (unentered.of_old compiled.old confined inRange)
  · intro live id low high
    obtain ⟨itemLive, othersLive⟩ := List.forall_mem_cons.mp live
    by_cases inHead : id < middle.size
    · exact within itemLive id low inHead
    · exact tailReached othersLive id (Nat.le_of_not_lt inHead) high
  · intro _ live
    exact (within (live item List.mem_cons_self) inner.accept accept.1 accept.2).tail leaves
  · intro dead
    rw [List.forall_mem_cons, not_and_or] at dead
    rcases dead with itemDead | othersDead
    · obtain ⟨id, low, high, notStart, unentered⟩ := head.orphaned itemDead
      exact ⟨id, low, by omega, kept id notStart (by omega) high unentered⟩
    · obtain ⟨id, low, high, unentered⟩ := tailOrphaned othersDead
      exact ⟨id, by omega, high, unentered⟩

theorem spanned_alternative {items : List Pattern} (confined : arena.Confined 0 arena.size)
    (fanned : Fanned ((arena.push .blank).push .blank) grown ⟨arena.size, arena.size + 1⟩ items)
    (empty : items = [] → grown = (arena.push .blank).push .blank)
    (grows : arena.size + 2 ≤ grown.size) :
    Spanned arena grown (.alternative items) ⟨arena.size, arena.size + 1⟩ := by
  have size := arena.size_blanks
  have reached := fanned.reached
  have orphaned := fanned.orphaned
  rw [size] at reached orphaned
  constructor
  · intro live id low high
    obtain ⟨some, each⟩ := Pattern.live_alternative_iff.mp live
    by_cases isStart : id = arena.size
    · rw [isStart]
      exact .refl
    · by_cases isAccept : id = arena.size + 1
      · rw [isAccept]
        exact fanned.crossed some each
      · exact reached each id (by omega) high
  · intro dead
    by_cases none : items = []
    · refine ⟨arena.size + 1, Nat.le_succ _, by omega, Nat.succ_ne_self _, ?_⟩
      intro source leads
      rw [empty none, leads_push_blank_iff, leads_push_blank_iff] at leads
      exact unentered_of_size_le confined (Nat.le_succ _) source leads
    · rw [Pattern.live_alternative_iff, and_iff_right none] at dead
      obtain ⟨id, low, high, unentered⟩ := orphaned dead
      exact ⟨id, by omega, high, by simp only; omega, unentered⟩

theorem Wrapped.leads_cases {final : Arena} {body : Fragment} {skips repeats : Bool}
    (wrapped : Wrapped grown final body skips repeats) (leads : final.Leads source target) :
    grown.Leads source target ∨ target = body.start ∨ target = grown.size + 1 := by
  have size := wrapped.size
  by_cases isStart : source = grown.size
  · rw [Leads, isStart, wrapped.start] at leads
    cases skips <;> simp [NfaState.LeadsTo] at leads <;> omega
  · by_cases isLeft : source = body.accept
    · rw [Leads, isLeft, wrapped.left] at leads
      cases repeats <;> simp [NfaState.LeadsTo] at leads <;> omega
    · by_cases old : source < grown.size
      · rw [Leads, wrapped.kept source old isLeft] at leads
        exact Or.inl leads
      · have inRange := leads.lt_size
        have isAccept : source = grown.size + 1 := by omega
        rw [Leads, isAccept, wrapped.accept] at leads
        exact (NfaState.not_leadsTo_blank target leads).elim

theorem Wrapped.spanned {final : Arena} {body : Fragment} {skips repeats : Bool}
    (wrapped : Wrapped grown final body skips repeats) {pattern outer : Pattern}
    (compiled : Compiled arena grown pattern body) (inner : Spanned arena grown pattern body)
    (live : outer.Live ↔ pattern.Live) :
    Spanned arena final outer ⟨grown.size, grown.size + 1⟩ := by
  have start := compiled.start_inside
  have accept := compiled.accept_inside
  have size := wrapped.size
  have widens : Widens grown final := by
    intro source target leads
    by_cases isAccept : source = body.accept
    · rw [Leads, isAccept, compiled.bare] at leads
      exact (NfaState.not_leadsTo_blank target leads).elim
    · rwa [Leads, wrapped.kept source leads.lt_size isAccept]
  have enters : final.Leads grown.size body.start := by
    rw [Leads, wrapped.start]
    exact Or.inl List.mem_cons_self
  have leaves : final.Leads body.accept (grown.size + 1) := by
    rw [Leads, wrapped.left]
    exact Or.inl List.mem_cons_self
  constructor
  · intro alive id low high
    have throughout := inner.reached (live.mp alive)
    have toBody : ∀ id, arena.size ≤ id → id < grown.size → final.Reaches grown.size id :=
      fun id low high => .head enters (widens.reaches (throughout id low high))
    by_cases inBody : id < grown.size
    · exact toBody id low inBody
    · by_cases isStart : id = grown.size
      · rw [isStart]
        exact .refl
      · have isAccept : id = grown.size + 1 := by omega
        rw [isAccept]
        exact (toBody body.accept accept.1 accept.2).tail leaves
  · intro dead
    rw [live] at dead
    obtain ⟨id, low, high, notStart, unentered⟩ := inner.orphaned dead
    refine ⟨id, low, by omega, by simp only; omega, ?_⟩
    intro source leads
    rcases wrapped.leads_cases leads with old | isStart | isAccept
    · exact unentered source old
    · exact notStart isStart
    · omega

mutual

/-- What a pattern adds to an arena is reached from its start, or has an unentered state. -/
theorem fragment_spanned (arena : Arena) (pattern : Pattern)
    (confined : arena.Confined 0 arena.size) :
    Spanned arena (arena.fragment pattern).1 pattern (arena.fragment pattern).2 := by
  cases pattern with
  | literal text =>
      rw [fragment]
      exact spanned_literal arena text
  | range lo hi =>
      rw [fragment]
      exact spanned_hop confined (iff_of_true (Pattern.live_range lo hi) (List.cons_ne_nil _ _))
  | set chars =>
      rw [fragment]
      exact spanned_hop confined Pattern.live_set_iff
  | any domain =>
      rw [fragment]
      exact spanned_hop confined (iff_of_true (Pattern.live_any domain) (List.cons_ne_nil _ _))
  | anyExcept excluded domain =>
      rw [fragment]
      exact spanned_hop confined Pattern.live_anyExcept_iff
  | sequence items =>
      have spanned := fragments_spanned arena items confined
      have laid := fragments_laid arena items
      rw [fragment]
      generalize arena.fragments items = built at spanned laid ⊢
      obtain ⟨grown, parts⟩ := built
      cases parts with
      | nil =>
          obtain ⟨rfl, same⟩ := laid.empty rfl
          subst same
          exact spanned_sequenceNil grown
      | cons first rest => exact spanned.joined fun part member => (laid.accepts part member).2
  | alternative items =>
      have size := arena.size_blanks
      have blanks : Confined ((arena.push .blank).push .blank) 0 (arena.size + 2) :=
        (confined.mono (Nat.le_add_right _ 2)).push_blank.push_blank
      have fanned := branches_fanned ((arena.push .blank).push .blank)
        ⟨arena.size, arena.size + 1⟩ items (by rwa [size]) (by rw [size]; simp only; omega)
        (by rw [size]; exact Nat.lt_succ_self _)
      have grows := (branches_branched ((arena.push .blank).push .blank)
        ⟨arena.size, arena.size + 1⟩ items (by rw [size]; simp only; omega)
        (by rw [size]; exact Nat.lt_succ_self _)).size_le
      rw [size] at grows
      rw [fragment]
      refine spanned_alternative confined fanned ?_ grows
      rintro rfl
      rw [branches]
  | optional inner =>
      have compiled := fragment_compiled arena inner
      have body := fragment_spanned arena inner confined
      obtain ⟨final, same, wrapped⟩ := fragment_optional compiled
      rw [same]
      exact wrapped.spanned compiled body Pattern.live_optional_iff
  | zeroOrMore inner =>
      have compiled := fragment_compiled arena inner
      have body := fragment_spanned arena inner confined
      obtain ⟨final, same, wrapped⟩ := fragment_zeroOrMore compiled
      rw [same]
      exact wrapped.spanned compiled body Pattern.live_zeroOrMore_iff
  | oneOrMore inner =>
      have compiled := fragment_compiled arena inner
      have body := fragment_spanned arena inner confined
      obtain ⟨final, same, wrapped⟩ := fragment_oneOrMore compiled
      rw [same]
      exact wrapped.spanned compiled body Pattern.live_oneOrMore_iff

theorem fragments_spanned (arena : Arena) (items : List Pattern)
    (confined : arena.Confined 0 arena.size) :
    SpannedAll arena (arena.fragments items).1 items (arena.fragments items).2 := by
  cases items with
  | nil =>
      rw [fragments]
      exact spannedAll_nil arena
  | cons item rest =>
      have compiled := fragment_compiled arena item
      have head := fragment_spanned arena item confined
      have closed := fragment_confined arena item confined (Nat.zero_le _)
      have laid := fragments_laid (arena.fragment item).1 rest
      have tail := fragments_spanned (arena.fragment item).1 rest closed
      obtain ⟨inside, starts⟩ := fragments_confined_self (arena.fragment item).1 rest
      rw [fragments]
      exact spannedAll_cons compiled laid inside (fun part member => (starts part member).1)
        head tail

theorem branches_fanned (arena : Arena) (outer : Fragment) (items : List Pattern)
    (confined : arena.Confined 0 arena.size) (startInside : outer.start < arena.size)
    (acceptInside : outer.accept < arena.size) :
    Fanned arena (arena.branches outer items) outer items := by
  cases items with
  | nil =>
      rw [branches]
      exact fanned_nil arena outer
  | cons item rest =>
      have compiled := fragment_compiled arena item
      have bounds := compiled.start_inside
      have head := fragment_spanned arena item confined
      have closed := fragment_confined arena item confined (Nat.zero_le _)
      have inside := fragment_confined_self arena item
      have size := size_fan (arena.fragment item).1 outer (arena.fragment item).2
      have fanClosed : ((arena.fragment item).1.fan outer (arena.fragment item).2).Confined 0
          ((arena.fragment item).1.fan outer (arena.fragment item).2).size := by
        rw [size]
        exact (closed.link (by omega)).link (by omega)
      have tail := branches_fanned _ outer rest fanClosed (by omega) (by omega)
      have grows := (branches_branched ((arena.fragment item).1.fan outer
        (arena.fragment item).2) outer rest (by omega) (by omega)).size_le
      rw [size] at grows
      rw [branches]
      exact fanned_cons startInside acceptInside compiled inside head grows tail

end

end Arena

namespace Nfa

theorem leads_setTag_iff {arena : Arena} {tagged source target : Nat} {tag : AcceptTag}
    (inRange : tagged < arena.size) :
    (arena.setTag tagged tag).Leads source target ↔ arena.Leads source target := by
  by_cases same : source = tagged
  · rw [Arena.Leads, same, Arena.stateAt_setTag_self _ inRange]
    rfl
  · rw [Arena.Leads, Arena.stateAt_setTag_of_ne _ same]
    rfl

theorem reaches_iff {nfa : Nfa} {source target : Nat} :
    nfa.Reaches source target ↔ Arena.Reaches nfa.states source target := by
  constructor
  · intro reaches
    induction reaches with
    | refl => exact .refl
    | step edge _ ih => exact .head edge ih
  · intro reaches
    induction reaches using Relation.ReflTransGen.head_induction_on with
    | refl => exact .refl _
    | head edge _ ih => exact .step edge ih

/-- Every state of a pattern's automaton is reached from the start, by edges of any kind,
exactly when at no depth the pattern has a set without characters, an exclusion that
leaves nothing of its domain, or an alternative without items. -/
theorem ofPattern_reaches_iff_live (pattern : Pattern) :
    (∀ id < (ofPattern pattern).states.size,
        (ofPattern pattern).Reaches (ofPattern pattern).start id) ↔
      ∀ part : Pattern, part.Within pattern → ¬part.Dead := by
  have bounds := (Arena.fragment_compiled #[] pattern).accept_inside
  have spanned := Arena.fragment_spanned #[] pattern (.empty 0)
  have leads : ∀ source target, Arena.Leads (ofPattern pattern).states source target ↔
      (Arena.fragment #[] pattern).1.Leads source target :=
    fun source target => leads_setTag_iff bounds.2
  have size : (ofPattern pattern).states.size = (Arena.fragment #[] pattern).1.size :=
    Arena.size_setTag ..
  rw [size]
  constructor
  · intro all
    apply Classical.byContradiction
    intro dead
    obtain ⟨id, -, high, notStart, unentered⟩ := spanned.orphaned dead
    rcases (reaches_iff.mp (all id high)).cases_tail with same | ⟨source, -, edge⟩
    · exact notStart same
    · exact unentered source ((leads source id).mp edge)
  · intro live id high
    have widens : Arena.Widens (Arena.fragment #[] pattern).1 (ofPattern pattern).states :=
      fun source target => (leads source target).mpr
    exact reaches_iff.mpr (widens.reaches (spanned.reached live id (Nat.zero_le id) high))

end Nfa

end Predictive
