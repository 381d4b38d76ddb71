/-
When the tokens of a text come to an end. Each token takes a piece of the text, and
the piece is what lies between two recorded offsets. Offsets stop at their limit:
there a match has no bytes to take, so the same match is found again at every call
and empty tokens come without end. A scanner that never gets there with a match in
front of it ends, and none of its tokens is empty.
-/

import Predictive.Proofs.Lexical.MaximalMunch

namespace Predictive

namespace Text

/-- The limit of offsets is no place inside a character of the text. -/
def LimitBetween (text : List Char) : Prop :=
  byteLength text ≤ Offset.limit ∨
    ∃ left right, text = left ++ right ∧ byteLength left = Offset.limit

end Text

namespace Scanner

open MaximalMunch

/-! ### Calls -/

def after (dfa : Dfa) (calls : Nat) (scanner : Scanner) : Scanner :=
  Nat.iterate (fun scanner => (scanner.next dfa).2) calls scanner

def answer (dfa : Dfa) (calls : Nat) (scanner : Scanner) : Option (Except LexError Token) :=
  ((scanner.after dfa calls).next dfa).1

/-- The calls come to an end, and no token is empty. -/
structure Exhausts (dfa : Dfa) (scanner : Scanner) : Prop where
  ends : ∃ calls, scanner.answer dfa calls = none
  nonempty : ∀ calls token, scanner.answer dfa calls = some (.ok token) → token.text ≠ ""

structure Stalled (dfa : Dfa) (scanner : Scanner) : Prop where
  running : scanner.ended = false
  limit : scanner.cursor.offset = Offset.limit
  accepts : ∃ beginning, beginning <+: scanner.rest ∧ beginning ≠ [] ∧
    dfa.accepted? beginning ≠ none

variable {dfa : Dfa} {scanner : Scanner} {text : List Char}

theorem after_succ (dfa : Dfa) (calls : Nat) (scanner : Scanner) :
    scanner.after dfa (calls + 1) = (scanner.next dfa).2.after dfa calls :=
  rfl

theorem answer_succ (dfa : Dfa) (calls : Nat) (scanner : Scanner) :
    scanner.answer dfa (calls + 1) = (scanner.next dfa).2.answer dfa calls :=
  rfl

theorem answer_add (dfa : Dfa) (calls more : Nat) (scanner : Scanner) :
    scanner.answer dfa (calls + more) = (scanner.after dfa calls).answer dfa more := by
  rw [answer, after, Nat.add_comm, Function.iterate_add_apply]
  rfl

/-! ### A stalled scanner -/

theorem Stalled.next (stalled : Stalled dfa scanner) :
    (∃ token, (scanner.next dfa).1 = some (.ok token) ∧ token.text = "") ∧
      Stalled dfa (scanner.next dfa).2 := by
  obtain ⟨rest, cursor, ended⟩ := scanner
  obtain ⟨rfl, limit, accepts⟩ := stalled
  have best := longestMatch_start dfa cursor rest
  cases found : longestMatch dfa 0 cursor none rest with
  | none =>
      rw [found] at best
      obtain ⟨beginning, isPrefix, nonempty, accepted⟩ := accepts
      exact (accepted (best beginning isPrefix nonempty)).elim
  | some pair =>
      obtain ⟨stop, tag⟩ := pair
      rw [found] at best
      obtain ⟨lexeme, -, -, rfl, -, -⟩ := best
      have stays : (cursor.advanceOver lexeme).offset = Offset.limit := by
        rw [offset_advanceOver_eq_add (Nat.le_of_eq limit), limit]
        exact Nat.min_eq_right (Nat.le_add_right _ _)
      have size : (cursor.advanceOver lexeme).offset - cursor.offset = Text.byteLength [] := by
        rw [stays, limit]
        exact Nat.sub_self _
      rw [← List.nil_append rest] at found
      have step := next_of_found found size
      rw [List.nil_append] at step
      rw [step]
      exact ⟨⟨_, rfl, rfl⟩, rfl, stays, accepts⟩

/-- A stalled scanner yields an empty token at every call. -/
theorem Stalled.answer (stalled : Stalled dfa scanner) (calls : Nat) :
    ∃ token, scanner.answer dfa calls = some (.ok token) ∧ token.text = "" := by
  induction calls generalizing scanner with
  | zero => exact stalled.next.1
  | succ calls ih => exact ih stalled.next.2

/-! ### One call -/

/-- A scanner on its way through a text: what is left follows what has been taken, and
the offset counts the bytes that have been taken. -/
def Tracks (text : List Char) (scanner : Scanner) : Prop :=
  ∃ before, text = before ++ scanner.rest ∧ scanner.cursor.offset = Text.byteLength before ∧
    Text.byteLength before ≤ Offset.limit

/-- What a call can do: end, report an error and end, or take a piece of what is left,
which is empty only for a stalled scanner. -/
inductive Takes (dfa : Dfa) (scanner : Scanner) :
    Option (Except LexError Token) × Scanner → Prop where
  | finished : Takes dfa scanner (none, { scanner with ended := true })
  | fault (error : LexError) :
      Takes dfa scanner (some (.error error), { scanner with ended := true })
  | piece {token : Token} {taken rest : List Char} {stop : Position}
      (whole : scanner.rest = taken ++ rest) (same : token.text = String.ofList taken)
      (offset : stop.offset = scanner.cursor.offset + Text.byteLength taken)
      (bounded : stop.offset ≤ Offset.limit) (progress : taken = [] → Stalled dfa scanner) :
      Takes dfa scanner (some (.ok token), ⟨rest, stop, false⟩)

theorem Tracks.exists_piece (tracks : Tracks text scanner) (between : Text.LimitBetween text)
    {lexeme : List Char} (isPrefix : lexeme <+: scanner.rest) :
    ∃ taken rest, scanner.rest = taken ++ rest ∧
      Offset.add scanner.cursor.offset (Text.byteLength lexeme) =
        scanner.cursor.offset + Text.byteLength taken := by
  obtain ⟨before, whole, offset, bounded⟩ := tracks
  rw [offset]
  by_cases fits : Text.byteLength before + Text.byteLength lexeme ≤ Offset.limit
  · obtain ⟨rest, same⟩ := isPrefix
    exact ⟨lexeme, rest, same.symm, Offset.add_eq_of_le fits⟩
  · -- the match crosses the limit, so the piece ends there
    have reaches : Offset.add (Text.byteLength before) (Text.byteLength lexeme) = Offset.limit :=
      Nat.min_eq_right (Nat.le_of_not_le fits)
    rw [reaches]
    rcases between with short | ⟨left, right, split, size⟩
    · obtain ⟨rest, same⟩ := isPrefix
      rw [whole, ← same, Text.byteLength_append, Text.byteLength_append] at short
      omega
    · rw [split] at whole
      rcases List.append_eq_append_iff.mp whole with
        ⟨inner, rfl, rfl⟩ | ⟨inner, rfl, same⟩
      · rw [Text.byteLength_append] at bounded ⊢
        have empty : inner = [] := by
          by_contra nonempty
          have positive := Text.byteLength_pos nonempty
          omega
        subst empty
        exact ⟨[], scanner.rest, rfl, by rw [Text.byteLength_nil]; omega⟩
      · rw [Text.byteLength_append] at size
        exact ⟨inner, right, same, size.symm⟩

theorem Tracks.takes_next (tracks : Tracks text scanner) (between : Text.LimitBetween text)
    (dfa : Dfa) : Takes dfa scanner (scanner.next dfa) := by
  obtain ⟨rest, cursor, ended⟩ := scanner
  cases ended with
  | true => exact .finished
  | false =>
      have best := longestMatch_start dfa cursor rest
      cases found : longestMatch dfa 0 cursor none rest with
      | none =>
          cases rest with
          | nil => exact .finished
          | cons first others =>
              rw [next_of_fault found]
              exact .fault _
      | some pair =>
          obtain ⟨stop, tag⟩ := pair
          rw [found] at best
          obtain ⟨lexeme, isPrefix, nonempty, rfl, accepts, -⟩ := best
          obtain ⟨taken, others, rfl, size⟩ := tracks.exists_piece between isPrefix
          obtain ⟨before, -, counted, bounded⟩ := tracks
          have reached : (cursor.advanceOver lexeme).offset =
              Offset.add cursor.offset (Text.byteLength lexeme) :=
            offset_advanceOver_eq_add (counted ▸ bounded) lexeme
          have advanced := reached.trans size
          rw [next_of_found found (by rw [advanced, Nat.add_sub_cancel_left])]
          apply Takes.piece rfl rfl advanced
          · rw [reached]
            exact Offset.add_le_limit _ _
          · intro empty
            have atLimit : cursor.offset = Offset.limit := by
              have positive := Text.byteLength_pos nonempty
              rw [empty, Text.byteLength_nil, Offset.add] at size
              simp only [Nat.add_zero] at size
              omega
            exact ⟨rfl, atLimit, lexeme, isPrefix, nonempty, accepts ▸ Option.some_ne_none _⟩

theorem Tracks.next (tracks : Tracks text scanner) (between : Text.LimitBetween text)
    (dfa : Dfa) : Tracks text (scanner.next dfa).2 := by
  have takes := tracks.takes_next between dfa
  obtain ⟨before, whole, counted, bounded⟩ := tracks
  generalize scanner.next dfa = step at takes
  cases takes with
  | finished => exact ⟨before, whole, counted, bounded⟩
  | fault error => exact ⟨before, whole, counted, bounded⟩
  | @piece token taken rest stop rest_eq same offset stopBounded progress =>
      refine ⟨before ++ taken, ?_, ?_, ?_⟩
      · rw [whole, rest_eq, List.append_assoc]
      · rw [offset, counted, Text.byteLength_append]
      · rw [Text.byteLength_append, ← counted, ← offset]
        exact stopBounded

/-! ### Every call -/

theorem Tracks.after (tracks : Tracks text scanner) (between : Text.LimitBetween text)
    (dfa : Dfa) (calls : Nat) : Tracks text (scanner.after dfa calls) := by
  induction calls generalizing scanner with
  | zero => exact tracks
  | succ calls ih => exact ih (tracks.next between dfa)

theorem tracks_ofText (text : List Char) : Tracks text (ofText text) :=
  ⟨[], rfl, rfl, Nat.zero_le _⟩

theorem answer_of_ended (ended : scanner.ended = true) (dfa : Dfa) :
    scanner.answer dfa 0 = none := by
  rw [answer, after, Nat.iterate, Scanner.next, if_pos ended]

theorem Tracks.exists_none (tracks : Tracks text scanner) (between : Text.LimitBetween text)
    (moving : ∀ calls, ¬Stalled dfa (scanner.after dfa calls)) :
    ∃ calls, scanner.answer dfa calls = none := by
  induction size : scanner.rest.length using Nat.strongRecOn generalizing scanner with
  | ind size ih =>
      have takes := tracks.takes_next between dfa
      have later := tracks.next between dfa
      generalize made : scanner.next dfa = step at takes later
      cases takes with
      | finished => exact ⟨0, congrArg Prod.fst made⟩
      | fault error =>
          refine ⟨1, ?_⟩
          rw [answer, after_succ, made]
          exact answer_of_ended rfl dfa
      | @piece token taken rest stop whole same offset bounded progress =>
          have nonempty : taken ≠ [] := fun empty => moving 0 (progress empty)
          have shorter : rest.length < scanner.rest.length := by
            rw [whole, List.length_append]
            have positive := List.length_pos_iff.mpr nonempty
            omega
          have onward : ∀ calls, scanner.after dfa (calls + 1) =
              Scanner.after dfa calls ⟨rest, stop, false⟩ := by
            intro calls
            rw [after_succ, made]
          obtain ⟨calls, ends⟩ := ih rest.length (size ▸ shorter) later
            (fun calls => onward calls ▸ moving (calls + 1)) rfl
          refine ⟨calls + 1, ?_⟩
          rw [answer, onward]
          exact ends

theorem Tracks.token_ne_empty (tracks : Tracks text scanner) (between : Text.LimitBetween text)
    (moving : ¬Stalled dfa scanner) {token : Token}
    (yielded : (scanner.next dfa).1 = some (.ok token)) : token.text ≠ "" := by
  have takes := tracks.takes_next between dfa
  generalize scanner.next dfa = step at takes yielded
  cases takes with
  | finished => cases yielded
  | fault error => cases yielded
  | @piece token taken rest stop whole same offset bounded progress =>
      cases yielded
      intro empty
      apply moving
      apply progress
      rw [← String.toList_ofList (l := taken), ← same, empty]
      rfl

theorem Tracks.not_stalled (tracks : Tracks text scanner)
    (refused : ∀ left right, text = left ++ right → Text.byteLength left = Offset.limit →
      ∀ beginning, beginning <+: right → beginning ≠ [] → dfa.accepted? beginning = none) :
    ¬Stalled dfa scanner := by
  intro stalled
  obtain ⟨before, whole, counted, -⟩ := tracks
  obtain ⟨beginning, isPrefix, nonempty, accepts⟩ := stalled.accepts
  exact accepts (refused before scanner.rest whole (counted ▸ stalled.limit) beginning isPrefix
    nonempty)

/-- The calls end without an empty token exactly when the scanner never stalls, and it
never does on a text up to the limit. Once it stalls, every call yields an empty token. -/
theorem exhausts_iff_never_stalled (dfa : Dfa) (text : List Char)
    (between : Text.LimitBetween text) :
    (Exhausts dfa (ofText text) ↔ ∀ calls, ¬Stalled dfa ((ofText text).after dfa calls)) ∧
      (Text.byteLength text ≤ Offset.limit → Exhausts dfa (ofText text)) ∧
      ∀ calls, Stalled dfa ((ofText text).after dfa calls) → ∀ more, ∃ token,
        (ofText text).answer dfa (calls + more) = some (.ok token) ∧ token.text = "" := by
  have tracks := tracks_ofText text
  have exhausts : (∀ calls, ¬Stalled dfa ((ofText text).after dfa calls)) →
      Exhausts dfa (ofText text) := by
    intro moving
    constructor
    · exact tracks.exists_none between moving
    · intro calls token yielded
      exact (tracks.after between dfa calls).token_ne_empty between (moving calls) yielded
  refine ⟨⟨?_, exhausts⟩, ?_, ?_⟩
  · intro exhausted calls stalled
    obtain ⟨token, yielded, empty⟩ := stalled.next.1
    exact exhausted.nonempty calls token yielded empty
  · intro fits
    apply exhausts
    intro calls
    apply (tracks.after between dfa calls).not_stalled
    intro left right whole size beginning isPrefix nonempty
    obtain ⟨behind, rfl⟩ := isPrefix
    have positive := Text.byteLength_pos nonempty
    rw [whole, Text.byteLength_append, Text.byteLength_append] at fits
    omega
  · intro calls stalled more
    rw [answer_add]
    exact stalled.answer more

/-! ### Runs of one letter -/

def letterRun : Dfa :=
  ⟨#[⟨#[⟨⟨'a', 'a'⟩, 1⟩], none⟩, ⟨#[⟨⟨'a', 'a'⟩, 1⟩], some ⟨"run", 0, 0⟩⟩]⟩

theorem byteLength_replicate (count : Nat) :
    Text.byteLength (List.replicate count 'a') = count := by
  induction count with
  | zero => rfl
  | succ count ih =>
      have one : 'a'.utf8Size = 1 := by decide
      rw [List.replicate_succ, Text.byteLength_cons, ih, one, Nat.add_comm]

theorem letterRun_accepted (count : Nat) :
    letterRun.accepted? (List.replicate (count + 1) 'a') = some ⟨"run", 0, 0⟩ := by
  have first : letterRun.next? 0 'a' = some 1 := by decide +kernel
  have again : letterRun.next? 1 'a' = some 1 := by decide +kernel
  have loops : letterRun.run? 1 (List.replicate count 'a') = some 1 := by
    induction count with
    | zero => rfl
    | succ count ih => rw [List.replicate_succ, Dfa.run?, again, Option.bind_some, ih]
  rw [Dfa.accepted?, List.replicate_succ, Dfa.run?, first, Option.bind_some, loops]
  rfl

theorem letterRun_longestMatch (cursor : Position) (count : Nat) :
    longestMatch letterRun 0 cursor none (List.replicate (count + 1) 'a') =
      some (cursor.advanceOver (List.replicate (count + 1) 'a'), ⟨"run", 0, 0⟩) := by
  have best := longestMatch_start letterRun cursor (List.replicate (count + 1) 'a')
  have accepts := letterRun_accepted count
  cases found : longestMatch letterRun 0 cursor none (List.replicate (count + 1) 'a') with
  | none =>
      rw [found] at best
      have refused := best _ (List.prefix_refl _) List.replicate_succ_ne_nil
      rw [accepts] at refused
      cases refused
  | some pair =>
      obtain ⟨stop, tag⟩ := pair
      rw [found] at best
      obtain ⟨lexeme, isPrefix, -, rfl, tagged, longest⟩ := best
      have whole : lexeme = List.replicate (count + 1) 'a' := by
        apply isPrefix.eq_of_length_le
        apply Nat.le_of_not_lt
        intro longer
        have refused := longest _ (List.prefix_refl _) longer
        rw [accepts] at refused
        cases refused
      rw [whole, accepts] at tagged
      rw [whole, ← Option.some.inj tagged]

theorem letterRun_exhausts_at_limit :
    Text.LimitBetween (List.replicate Offset.limit 'a' ++ ['!']) ∧
      Exhausts letterRun (ofText (List.replicate Offset.limit 'a' ++ ['!'])) := by
  have cut := byteLength_replicate Offset.limit
  have between : Text.LimitBetween (List.replicate Offset.limit 'a' ++ ['!']) :=
    Or.inr ⟨_, ['!'], rfl, cut⟩
  have moving : ∀ calls, ¬Stalled letterRun
      ((ofText (List.replicate Offset.limit 'a' ++ ['!'])).after letterRun calls) := by
    intro calls
    apply ((tracks_ofText _).after between letterRun calls).not_stalled
    intro left right whole size beginning isPrefix nonempty
    obtain ⟨-, rfl⟩ := Text.append_inj_of_byteLength whole (cut.trans size.symm)
    rcases List.prefix_cons_iff.mp isPrefix with empty | ⟨rest, rfl, inside⟩
    · exact (nonempty empty).elim
    · rw [List.prefix_nil.mp inside]
      decide +kernel
  exact ⟨between, (exhausts_iff_never_stalled letterRun _ between).1.mpr moving⟩

/-- One letter more than offsets can count: the first run takes all but the last letter,
which the scanner then never leaves. -/
theorem letterRun_stalls {count : Nat} (limit : count = Offset.limit) :
    (∃ token, (next letterRun (ofText (List.replicate (count + 1) 'a'))).1 = some (.ok token)) ∧
      Stalled letterRun (next letterRun (ofText (List.replicate (count + 1) 'a'))).2 := by
  have found := letterRun_longestMatch .origin count
  have stop : (Position.origin.advanceOver (List.replicate (count + 1) 'a')).offset =
      Offset.limit := by
    rw [offset_advanceOver_eq_add (Nat.zero_le _), byteLength_replicate]
    apply Nat.min_eq_right
    rw [← limit]
    exact Nat.le_trans (Nat.le_succ count) (Nat.le_add_left _ _)
  have size : (Position.origin.advanceOver (List.replicate (count + 1) 'a')).offset -
      Position.origin.offset = Text.byteLength (List.replicate count 'a') := by
    rw [stop, byteLength_replicate, limit]
    rfl
  rw [List.replicate_succ'] at found stop size ⊢
  rw [ofText, next_of_found found size]
  exact ⟨⟨_, rfl⟩, rfl, stop, ['a'], List.prefix_refl _, List.cons_ne_nil _ _, by decide +kernel⟩

theorem letterRun_unending {count : Nat} (limit : count = Offset.limit) :
    (∀ calls, answer letterRun calls (ofText (List.replicate (count + 1) 'a')) ≠ none) ∧
      ∀ calls, ∃ token, answer letterRun (calls + 1) (ofText (List.replicate (count + 1) 'a')) =
        some (.ok token) ∧ token.text = "" := by
  obtain ⟨⟨first, yielded⟩, stalled⟩ := letterRun_stalls limit
  have later : ∀ calls, ∃ token,
      answer letterRun (calls + 1) (ofText (List.replicate (count + 1) 'a')) =
        some (.ok token) ∧ token.text = "" := by
    intro calls
    rw [answer_succ]
    exact stalled.answer calls
  refine ⟨?_, later⟩
  intro calls ends
  cases calls with
  | zero => cases yielded.symm.trans ends
  | succ calls =>
      obtain ⟨token, again, -⟩ := later calls
      cases again.symm.trans ends

theorem letterRun_never_ends :
    (∀ calls, answer letterRun calls (ofText (List.replicate (Offset.limit + 1) 'a')) ≠ none) ∧
      ∀ calls, ∃ token,
        answer letterRun (calls + 1) (ofText (List.replicate (Offset.limit + 1) 'a')) =
          some (.ok token) ∧ token.text = "" :=
  letterRun_unending rfl

end Scanner

end Predictive
