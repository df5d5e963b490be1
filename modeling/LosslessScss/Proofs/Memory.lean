import LosslessScss.Proofs.Likeness
import LosslessScss.Proofs.Nesting

/-!
# What a survey remembers

`Statement.groupEnd?` walks from an opening bracket to the bracket that closes the group,
where every closing bracket closes the innermost group.  A memory is sound for a stream of
tokens if it holds nothing but the ends that such walks find (`Memory.Sound`).  With a sound
memory a survey answers what the plain one does and remembers sound ends only
(`surveyFrom_agrees`), and so the parser works with sound memories throughout.
-/

namespace LosslessScss

namespace Statement

/-! ### Walking to the end of a group -/

/-- The index of the token that closes the outermost of `depth` groups, where `ts` are the
tokens from the given index on; none if the text ends before.  Every closing bracket closes
the innermost group. -/
def groupEnd? (index depth : Nat) (ts : List Token) : Option Nat :=
  match ts with
  | [] => none
  | t :: ts =>
    match Group.openedBy? t ts with
    | some g => groupEnd? (index + g.openerLength) (depth + 1) (ts.drop (g.openerLength - 1))
    | none =>
      if t.closes then
        if depth ≤ 1 then some index else groupEnd? (index + 1) (depth - 1) ts
      else groupEnd? (index + 1) depth ts
termination_by ts.length
decreasing_by
  all_goals simp only [List.length_drop, List.length_cons]; omega

section Walk

variable {e : Ending} {index depth stop : Nat} {ts : List Token}

theorem groupEnd?_opened {t : Token} {g : Group} (opened : Group.openedBy? t ts = some g) :
  groupEnd? index depth (t :: ts)
    = groupEnd? (index + g.openerLength) (depth + 1) (ts.drop (g.openerLength - 1))
  := by
  rw [groupEnd?, opened]

theorem le_groupEnd? (found : groupEnd? index depth ts = some stop) :
  index ≤ stop
  := by
  fun_induction groupEnd? index depth ts with
  | case1 => cases found
  | case2 _ _ _ _ _ _ ih => exact Nat.le_of_add_right_le (ih found)
  | case3 => cases found; exact Nat.le_refl _
  | case4 _ _ _ _ _ _ _ ih => exact Nat.le_of_succ_le (ih found)
  | case5 _ _ _ _ _ _ ih => exact Nat.le_of_succ_le (ih found)

/-- A group ends in front of the end of the text. -/
theorem groupEnd?_lt (found : groupEnd? index depth ts = some stop) :
  stop < index + ts.length
  := by
  fun_induction groupEnd? index depth ts with
  | case1 => cases found
  | case2 index depth t ts g _ ih =>
    have lt := ih found
    have le := le_groupEnd? found
    have pos := g.openerLength_pos
    rw [List.length_drop] at lt
    rw [List.length_cons]
    omega
  | case3 => cases found; exact Nat.lt_add_of_pos_right (Nat.succ_pos _)
  | case4 _ _ _ _ _ _ _ ih | case5 _ _ _ _ _ _ ih =>
    have lt := ih found
    rw [List.length_cons]
    omega

/-- The tokens after a group are found from behind the tokens `t :: ts.take (n - 1)` in it as
well. -/
theorem drop_after {n : Nat} (pos : 0 < n) (le : index + n ≤ stop) (t : Token)
    (ts : List Token) :
  (ts.drop (n - 1)).drop (stop + 1 - (index + n)) = (t :: ts).drop (stop + 1 - index)
  := by
  have split : stop + 1 - index = (n - 1 + (stop + 1 - (index + n))) + 1 := by omega
  rw [List.drop_drop, split, List.drop_succ_cons]

/-- A survey inside of groups passes over the rest of those that end. -/
theorem plainSurveyFrom_groupEnd? (found : groupEnd? index depth ts = some stop)
    (inside : 0 < depth) (scope : Scope) (around : Nat) (first : Bool) (colons : Colons) :
  plainSurveyFrom e scope (around + depth) first colons ts
    = plainSurveyFrom e scope around false colons (ts.drop (stop + 1 - index))
  := by
  fun_induction groupEnd? index depth ts generalizing first with
  | case1 => cases found
  | case2 index depth t ts g opened ih =>
    rw [plainSurveyFrom_opened opened scope (by omega), Nat.add_assoc,
      ih found (by omega) false, drop_after g.openerLength_pos (le_groupEnd? found) t]
  | case3 index depth t ts unopened closes le =>
    cases found
    obtain rfl : depth = 1 := by omega
    rw [plainSurveyFrom_unopened unopened, if_pos closes, Nat.add_sub_cancel_left]
    rfl
  | case4 index depth t ts unopened closes gt ih =>
    obtain ⟨depth, rfl⟩ : ∃ d, depth = d + 1 := ⟨depth - 1, by omega⟩
    rw [← Nat.add_assoc, plainSurveyFrom_unopened unopened, if_pos closes]
    rw [Nat.add_sub_cancel] at ih found
    rw [ih found (by omega) false, ← drop_after Nat.one_pos (le_groupEnd? found) t]
    rfl
  | case5 index depth t ts unopened passes ih =>
    obtain ⟨depth, rfl⟩ : ∃ d, depth = d + 1 := ⟨depth - 1, by omega⟩
    rw [← Nat.add_assoc, plainSurveyFrom_unopened unopened, if_neg passes, Nat.add_assoc,
      ih found inside false, ← drop_after Nat.one_pos (le_groupEnd? found) t]
    rfl

/-- A survey inside of a group that never ends goes on to the end of the text. -/
theorem plainSurveyFrom_groupEnd?_none (missing : groupEnd? index depth ts = none)
    (inside : 0 < depth) (scope : Scope) (around : Nat) (first : Bool) (colons : Colons) :
  plainSurveyFrom e scope (around + depth) first colons ts = (do e.reach; return colons.form)
  := by
  fun_induction groupEnd? index depth ts generalizing first with
  | case1 => exact plainSurveyFrom_nil e scope _ first colons
  | case2 index depth t ts g opened ih =>
    rw [plainSurveyFrom_opened opened scope (by omega), Nat.add_assoc,
      ih missing (by omega) false]
  | case3 => cases missing
  | case4 index depth t ts unopened closes gt ih =>
    obtain ⟨depth, rfl⟩ : ∃ d, depth = d + 1 := ⟨depth - 1, by omega⟩
    rw [← Nat.add_assoc, plainSurveyFrom_unopened unopened, if_pos closes]
    exact ih missing (by omega) false
  | case5 index depth t ts unopened passes ih =>
    obtain ⟨depth, rfl⟩ : ∃ d, depth = d + 1 := ⟨depth - 1, by omega⟩
    rw [← Nat.add_assoc, plainSurveyFrom_unopened unopened, if_neg passes]
    exact ih missing inside false

/-- A walk inside of further groups passes over those that end. -/
theorem groupEnd?_groupEnd? (found : groupEnd? index depth ts = some stop) (inside : 0 < depth)
    {around : Nat} (further : 0 < around) :
  groupEnd? index (around + depth) ts
    = groupEnd? (stop + 1) around (ts.drop (stop + 1 - index))
  := by
  fun_induction groupEnd? index depth ts with
  | case1 => cases found
  | case2 index depth t ts g opened ih =>
    rw [groupEnd?_opened opened, Nat.add_assoc, ih found (by omega),
      drop_after g.openerLength_pos (le_groupEnd? found) t]
  | case3 index depth t ts unopened closes le =>
    cases found
    obtain rfl : depth = 1 := by omega
    rw [groupEnd?, unopened, if_pos closes, if_neg (by omega), Nat.add_sub_cancel_left]
    rfl
  | case4 index depth t ts unopened closes gt ih =>
    rw [groupEnd?, unopened, if_pos closes, if_neg (by omega), Nat.add_sub_assoc (by omega),
      ih found (by omega), ← drop_after Nat.one_pos (le_groupEnd? found) t]
    rfl
  | case5 index depth t ts unopened passes ih =>
    rw [groupEnd?, unopened, if_neg passes, ih found inside,
      ← drop_after Nat.one_pos (le_groupEnd? found) t]
    rfl

/-- A walk inside of groups that never end finds no end of a further one. -/
theorem groupEnd?_add_none (missing : groupEnd? index depth ts = none) (inside : 0 < depth)
    (around : Nat) :
  groupEnd? index (around + depth) ts = none
  := by
  fun_induction groupEnd? index depth ts with
  | case1 => rw [groupEnd?]
  | case2 index depth t ts g opened ih =>
    rw [groupEnd?_opened opened]
    exact ih missing (by omega)
  | case3 => cases missing
  | case4 index depth t ts unopened closes gt ih =>
    rw [groupEnd?, unopened, if_pos closes, if_neg (by omega), Nat.add_sub_assoc (by omega)]
    exact ih missing (by omega)
  | case5 index depth t ts unopened passes ih =>
    rw [groupEnd?, unopened, if_neg passes]
    exact ih missing inside

end Walk

/-! ### Sound memories -/

/-- A group starts at the given index of the tokens `ts`. -/
def StartsGroup (ts : List Token) (start : Nat) : Prop :=
  ∃ t us g, ts.drop start = t :: us ∧ Group.openedBy? t us = some g

/-- The group that starts at the index `start` of the tokens `ts` is open at `index`, inside of
it `depth` more groups. -/
structure OpenAt (ts : List Token) (start depth index : Nat) : Prop where
  starts : StartsGroup ts start
  lt : start < index
  walk : groupEnd? start 0 (ts.drop start) = groupEnd? index (depth + 1) (ts.drop index)

/-- A memory holds nothing but the ends of groups: for an index at which a group starts, the
later one at which a walk through the group ends, or none if the walk comes to the end of the
text. -/
structure Memory.Sound (s : TokenStream) (memory : Memory) : Prop where
  starts : ∀ start stop?, memory[start]? = some stop? → StartsGroup s.tokens start
  closed : ∀ start stop, memory[start]? = some (some stop) →
    start < stop ∧ groupEnd? start 0 (s.tokens.drop start) = some stop
  unclosed : ∀ start, memory[start]? = some none →
    groupEnd? start 0 (s.tokens.drop start) = none ∧ ∃ p, s.ending = .finished p

namespace Memory.Sound

variable {s : TokenStream} {memory : Memory}

theorem empty (s : TokenStream) :
  Memory.Sound s ∅
  := by
  constructor <;> simp

/-- To remember what a walk through a group finds is sound. -/
theorem insert (sound : memory.Sound s) {start : Nat} {stop? : Option Nat}
    (starts : StartsGroup s.tokens start)
    (walk : groupEnd? start 0 (s.tokens.drop start) = stop?) (later : ∀ stop ∈ stop?, start < stop)
    (finished : stop? = none → ∃ p, s.ending = .finished p) :
  Memory.Sound s (memory.insert start stop?)
  := by
  have entries (start' : Nat) (stop?' : Option Nat)
      (found : (memory.insert start stop?)[start']? = some stop?') :
      start = start' ∧ stop? = stop?' ∨ memory[start']? = some stop?' := by
    rw [Std.TreeMap.getElem?_insert] at found
    split at found
    case isTrue same => exact .inl ⟨Nat.compare_eq_eq.mp same, Option.some.inj found⟩
    case isFalse => exact .inr found
  constructor
  · intro start' stop?' found
    obtain ⟨rfl, rfl⟩ | found := entries start' stop?' found
    · exact starts
    · exact sound.starts start' stop?' found
  · intro start' stop found
    obtain ⟨rfl, rfl⟩ | found := entries start' (some stop) found
    · exact ⟨later stop rfl, walk⟩
    · exact sound.closed start' stop found
  · intro start' found
    obtain ⟨rfl, rfl⟩ | found := entries start' none found
    · exact ⟨walk, finished rfl⟩
    · exact sound.unclosed start' found

/-- To remember that groups are never closed is sound. -/
theorem leaveOpen (sound : memory.Sound s) {opened : List Nat} {p : Position}
    (finished : s.ending = .finished p)
    (walks : ∀ start ∈ opened,
      StartsGroup s.tokens start ∧ groupEnd? start 0 (s.tokens.drop start) = none) :
  Memory.Sound s (memory.leaveOpen opened)
  := by
  induction opened generalizing memory with
  | nil => exact sound
  | cons start opened ih =>
    obtain ⟨starts, walk⟩ := walks start List.mem_cons_self
    apply ih _ fun other mem => walks other (List.mem_cons_of_mem _ mem)
    exact sound.insert starts walk (by simp) fun _ => ⟨p, finished⟩

end Memory.Sound

/-! ### Groups that are open -/

section Open

variable {ts us : List Token} {start depth index stop : Nat} {t : Token} {g : Group}

theorem drop_of_drop_eq (rest : ts.drop index = t :: us) {n : Nat} (pos : 0 < n) :
  us.drop (n - 1) = ts.drop (index + n)
  := by
  obtain ⟨n, rfl⟩ := Nat.exists_eq_add_one.mpr pos
  rw [← List.drop_drop, rest, List.drop_succ_cons, Nat.add_sub_cancel]

/-- The tokens behind the one at `stop` are found from behind an earlier one as well. -/
theorem drop_of_lt (rest : ts.drop index = t :: us) (lt : index < stop) :
  us.drop (stop - index) = ts.drop (stop + 1)
  := by
  obtain ⟨n, rfl⟩ := Nat.exists_eq_add_of_lt lt
  rw [Nat.add_assoc, Nat.add_sub_cancel_left, Nat.add_assoc index,
    ← drop_of_drop_eq rest (Nat.succ_pos (n + 1))]
  rfl

theorem groupEnd?_drop_opened (depth : Nat) (rest : ts.drop index = t :: us)
    (opened : Group.openedBy? t us = some g) :
  groupEnd? index depth (ts.drop index)
    = groupEnd? (index + g.openerLength) (depth + 1) (ts.drop (index + g.openerLength))
  := by
  rw [rest, groupEnd?_opened opened, drop_of_drop_eq rest g.openerLength_pos]

theorem OpenAt.here (rest : ts.drop index = t :: us) (opened : Group.openedBy? t us = some g) :
  OpenAt ts index 0 (index + g.openerLength)
  := by
  constructor
  · exact ⟨t, us, g, rest, opened⟩
  · exact Nat.lt_add_of_pos_right g.openerLength_pos
  · exact groupEnd?_drop_opened _ rest opened

/-- The opening of another group leaves a group open, one further out. -/
theorem OpenAt.opened (isOpen : OpenAt ts start depth index) (rest : ts.drop index = t :: us)
    (opened : Group.openedBy? t us = some g) :
  OpenAt ts start (depth + 1) (index + g.openerLength)
  := by
  constructor
  · exact isOpen.starts
  · exact Nat.lt_add_right _ isOpen.lt
  · rw [isOpen.walk, groupEnd?_drop_opened _ rest opened]

/-- Another group, passed over as a whole, leaves a group open. -/
theorem OpenAt.jump (isOpen : OpenAt ts start depth index) (rest : ts.drop index = t :: us)
    (opened : Group.openedBy? t us = some g)
    (walk : groupEnd? index 0 (ts.drop index) = some stop) :
  OpenAt ts start depth (stop + 1)
  := by
  rw [groupEnd?_drop_opened _ rest opened] at walk
  have le := le_groupEnd? walk
  constructor
  · exact isOpen.starts
  · have := isOpen.lt
    omega
  · rw [isOpen.walk, groupEnd?_drop_opened _ rest opened,
      groupEnd?_groupEnd? walk Nat.one_pos (Nat.succ_pos depth), List.drop_drop]
    congr 2
    omega

/-- A closing bracket leaves a group open if it is not the innermost one. -/
theorem OpenAt.closed (isOpen : OpenAt ts start (depth + 1) index)
    (rest : ts.drop index = t :: us) (unopened : Group.openedBy? t us = none)
    (closes : t.closes) :
  OpenAt ts start depth (index + 1)
  := by
  constructor
  · exact isOpen.starts
  · exact Nat.lt_succ_of_lt isOpen.lt
  · rw [isOpen.walk, rest, groupEnd?, unopened, if_pos closes, if_neg (by omega),
      ← drop_of_drop_eq rest Nat.one_pos]
    rfl

/-- A closing bracket is the end of the innermost group. -/
theorem OpenAt.ends (isOpen : OpenAt ts start 0 index) (rest : ts.drop index = t :: us)
    (unopened : Group.openedBy? t us = none) (closes : t.closes) :
  groupEnd? start 0 (ts.drop start) = some index
  := by
  rw [isOpen.walk, rest, groupEnd?, unopened, if_pos closes, if_pos (by omega)]

theorem OpenAt.passed (isOpen : OpenAt ts start depth index) (rest : ts.drop index = t :: us)
    (unopened : Group.openedBy? t us = none) (passes : ¬t.closes) :
  OpenAt ts start depth (index + 1)
  := by
  constructor
  · exact isOpen.starts
  · exact Nat.lt_succ_of_lt isOpen.lt
  · rw [isOpen.walk, rest, groupEnd?, unopened, if_neg passes,
      ← drop_of_drop_eq rest Nat.one_pos]
    rfl

/-- A group that is open inside of one that never ends does not end itself, and neither does
a group around it. -/
theorem OpenAt.unclosed (isOpen : OpenAt ts start depth index) (rest : ts.drop index = t :: us)
    (opened : Group.openedBy? t us = some g) (walk : groupEnd? index 0 (ts.drop index) = none) :
  groupEnd? start 0 (ts.drop start) = none
  := by
  rw [groupEnd?_drop_opened _ rest opened] at walk
  rw [isOpen.walk, groupEnd?_drop_opened _ rest opened]
  exact groupEnd?_add_none walk Nat.one_pos (depth + 1)

end Open

/-! ### The survey -/

/-- The groups `opened`, the innermost one first, are those open at `index`. -/
def AllOpen (ts : List Token) (opened : List Nat) (index : Nat) : Prop :=
  ∀ depth start, opened[depth]? = some start → OpenAt ts start depth index

/-- What a survey answers is the answer of the plain one, and its memory is sound. -/
structure Agrees (s : TokenStream) (x : Except Failure (Form × Memory)) (y : Except Failure Form) :
    Prop where
  answer : x.map Prod.fst = y
  sound : Ensures x fun r => r.2.Sound s

theorem Agrees.ok {s : TokenStream} {memory : Memory} (sound : memory.Sound s) (form : Form) :
  Agrees s (.ok (form, memory)) (.ok form)
  := ⟨rfl, Ensures.ok sound⟩

theorem Agrees.bind {α : Type} {s : TokenStream} {x : Except Failure α}
    {f : α → Except Failure (Form × Memory)} {g : α → Except Failure Form}
    (h : ∀ a, x = .ok a → Agrees s (f a) (g a)) :
  Agrees s (x >>= f) (x >>= g)
  := by
  cases x with
  | error f => exact ⟨rfl, Ensures.error⟩
  | ok a => exact h a rfl

theorem AllOpen.nil (ts : List Token) (index : Nat) :
  AllOpen ts [] index
  := by
  intro depth start found
  cases found

/-- No group that is open ends, if a walk from where it is open comes to the end. -/
theorem AllOpen.unclosed {ts : List Token} {opened : List Nat} {index : Nat}
    (allOpen : AllOpen ts opened index)
    (walks : ∀ depth start, OpenAt ts start depth index →
      groupEnd? start 0 (ts.drop start) = none) :
  ∀ start ∈ opened, StartsGroup ts start ∧ groupEnd? start 0 (ts.drop start) = none
  := by
  intro start mem
  obtain ⟨depth, found⟩ := List.mem_iff_getElem?.mp mem
  have isOpen := allOpen depth start found
  exact ⟨isOpen.starts, walks depth start isOpen⟩

/-- A group that starts at `index` is the innermost one behind its opening. -/
theorem AllOpen.enter {ts us : List Token} {t : Token} {g : Group} {opened : List Nat}
    {index : Nat} (allOpen : AllOpen ts opened index) (rest : ts.drop index = t :: us)
    (openedBy : Group.openedBy? t us = some g) :
  AllOpen ts (index :: opened) (index + g.openerLength)
  := by
  intro depth start found
  cases depth with
  | zero =>
    cases found
    exact OpenAt.here rest openedBy
  | succ depth => exact (allOpen depth start found).opened rest openedBy

/-- Behind a group that ends the same groups are open as in front of it. -/
theorem AllOpen.jump {ts us : List Token} {t : Token} {g : Group} {opened : List Nat}
    {index stop : Nat} (allOpen : AllOpen ts opened index) (rest : ts.drop index = t :: us)
    (openedBy : Group.openedBy? t us = some g)
    (stops : groupEnd? index 0 (ts.drop index) = some stop) :
  AllOpen ts opened (stop + 1)
  := fun depth start found => (allOpen depth start found).jump rest openedBy stops

section Turns

variable {e : Ending} {s : TokenStream} {t : Token} {us : List Token} {opened : List Nat}
  {index : Nat} {scope : Scope} {first : Bool} {colons colons' : Colons} {memory : Memory}

/-- Where a token closes a group, the memory of its end is sound and the other groups stay
open. -/
theorem AllOpen.turn_closed (allOpen : AllOpen s.tokens opened index)
    (rest : s.tokens.drop index = t :: us)
    (unopened : (!opened.isEmpty) = true → Group.openedBy? t us = none) (sound : memory.Sound s)
    (turned : turn e scope (!opened.isEmpty) first colons t us = .ok .closed) :
  (memory.close opened index).Sound s ∧ AllOpen s.tokens opened.tail (index + 1)
  := by
  cases opened with
  | nil => exact ⟨sound, AllOpen.nil _ _⟩
  | cons o os =>
    have unopened := unopened rfl
    rw [show (!(o :: os).isEmpty) = true from rfl, turn_inside unopened] at turned
    split at turned
    case isFalse => cases turned
    case isTrue closes =>
      have innermost := allOpen 0 o rfl
      have ends := innermost.ends rest unopened closes
      constructor
      · exact sound.insert innermost.starts ends (by simpa using innermost.lt) (by simp)
      · exact fun depth start found => (allOpen (depth + 1) start found).closed rest unopened closes

/-- Where a token is passed over, the same groups stay open. -/
theorem AllOpen.turn_passed (allOpen : AllOpen s.tokens opened index)
    (rest : s.tokens.drop index = t :: us)
    (unopened : (!opened.isEmpty) = true → Group.openedBy? t us = none)
    (turned : turn e scope (!opened.isEmpty) first colons t us = .ok (.passed colons')) :
  AllOpen s.tokens opened (index + 1)
  := by
  cases opened with
  | nil => exact AllOpen.nil _ _
  | cons o os =>
    have unopened := unopened rfl
    rw [show (!(o :: os).isEmpty) = true from rfl, turn_inside unopened] at turned
    split at turned
    case isTrue => cases turned
    case isFalse passes =>
      exact fun depth start found => (allOpen depth start found).passed rest unopened passes

end Turns

theorem surveyFrom_opened {e : Ending} {t : Token} {us : List Token} {g : Group}
    (openedBy : Group.openedBy? t us = some g) (scope : Scope) (index : Nat) {opened : List Nat}
    (shown : g = .block → (!opened.isEmpty) = true) (first : Bool) (colons : Colons)
    (memory : Memory) :
  surveyFrom e scope index opened first colons memory (t :: us)
    = match memory[index]? with
      | some (some stop) =>
        surveyFrom e scope (stop + 1) opened false colons memory (us.drop (stop - index))
      | some none => .ok (colons.form, memory.leaveOpen opened)
      | none =>
        surveyFrom e scope (index + g.openerLength) (index :: opened) false colons memory
          (us.drop (g.openerLength - 1))
  := by
  obtain ⟨n, length⟩ := Nat.exists_eq_add_one.mpr g.openerLength_pos
  rw [surveyFrom, openerLength_opened openedBy _ shown, length]
  rfl

section Agreement

variable {s : TokenStream} {scope : Scope} {index : Nat} {opened : List Nat} {first : Bool}
  {colons : Colons} {memory : Memory}

/-- The survey from `index` on agrees with the plain one. -/
def AgreesAt (s : TokenStream) (scope : Scope) (index : Nat) : Prop :=
  ∀ {opened first colons memory}, memory.Sound s → AllOpen s.tokens opened index →
    Agrees s
      (surveyFrom s.ending scope index opened first colons memory (s.tokens.drop index))
      (plainSurveyFrom s.ending scope opened.length first colons (s.tokens.drop index))

theorem agreesAt_end (rest : s.tokens.drop index = []) :
  AgreesAt s scope index
  := by
  intro opened first colons memory sound allOpen
  rw [rest, surveyFrom, plainSurveyFrom]
  apply Agrees.bind
  intro _ reached
  obtain ⟨p, finished⟩ := Ending.eq_finished_of_reach reached
  apply Agrees.ok
  apply sound.leaveOpen finished
  apply allOpen.unclosed
  intro depth start isOpen
  rw [isOpen.walk, rest, groupEnd?]

/-- At the opening of a group the survey looks the group up, and goes through it if it does
not find it. -/
theorem agreesAt_opened {t : Token} {us : List Token} {g : Group}
    (rest : s.tokens.drop index = t :: us) (openedBy : Group.openedBy? t us = some g)
    (shown : g = .block → (!opened.isEmpty) = true) (sound : memory.Sound s)
    (allOpen : AllOpen s.tokens opened index)
    (further : ∀ index', index < index' → AgreesAt s scope index') :
  Agrees s
    (surveyFrom s.ending scope index opened first colons memory (t :: us))
    (plainSurveyFrom s.ending scope opened.length first colons (t :: us))
  := by
  have walk := groupEnd?_drop_opened 0 rest openedBy
  have shown' : g = .block → 0 < opened.length := by cases opened <;> simp_all
  rw [surveyFrom_opened openedBy scope index shown, plainSurveyFrom_opened openedBy scope shown',
    drop_of_drop_eq rest g.openerLength_pos]
  split
  case h_1 stop found =>
    obtain ⟨lt, stops⟩ := sound.closed index stop found
    have jumps := allOpen.jump rest openedBy stops
    rw [walk] at stops
    have le := le_groupEnd? stops
    rw [plainSurveyFrom_groupEnd? stops Nat.one_pos, List.drop_drop, drop_of_lt rest lt,
      show index + g.openerLength + (stop + 1 - (index + g.openerLength)) = stop + 1 by omega]
    exact further (stop + 1) (by omega) sound jumps
  case h_2 found =>
    obtain ⟨missing, p, finished⟩ := sound.unclosed index found
    have left := allOpen.unclosed fun depth start isOpen => isOpen.unclosed rest openedBy missing
    rw [walk] at missing
    rw [plainSurveyFrom_groupEnd?_none missing Nat.one_pos, finished]
    exact Agrees.ok (sound.leaveOpen finished left) _
  case h_3 =>
    have lt := Nat.lt_add_of_pos_right (n := index) g.openerLength_pos
    exact further (index + g.openerLength) lt sound (allOpen.enter rest openedBy)

/-- A token that opens no group closes the innermost one, or is passed over. -/
theorem agreesAt_turn {t : Token} {us : List Token} (rest : s.tokens.drop index = t :: us)
    (unopened : (!opened.isEmpty) = true → Group.openedBy? t us = none) (sound : memory.Sound s)
    (allOpen : AllOpen s.tokens opened index)
    (further : ∀ index', index < index' → AgreesAt s scope index') (turned : Turn) :
  turn s.ending scope (!opened.isEmpty) first colons t us = .ok turned →
  Agrees s
    (match turned with
      | .settled form => .ok (form, memory)
      | .closed =>
        surveyFrom s.ending scope (index + 1) opened.tail false colons (memory.close opened index)
          us
      | .passed colons => surveyFrom s.ending scope (index + 1) opened false colons memory us)
    (match turned with
      | .settled form => .ok form
      | .closed => plainSurveyFrom s.ending scope (opened.length - 1) false colons us
      | .passed colons => plainSurveyFrom s.ending scope opened.length false colons us)
  := by
  intro turn
  obtain rfl : us = s.tokens.drop (index + 1) := drop_of_drop_eq rest Nat.one_pos
  have further : AgreesAt s scope (index + 1) := further (index + 1) (Nat.lt_succ_self _)
  cases turned with
  | settled form => exact Agrees.ok sound form
  | closed =>
    obtain ⟨sound, allOpen⟩ := allOpen.turn_closed rest unopened sound turn
    rw [← List.length_tail]
    exact further sound allOpen
  | passed colons => exact further sound (allOpen.turn_passed rest unopened turn)

/-- With a sound memory a survey answers what the plain one does, and what it remembers is
sound. -/
theorem surveyFrom_agrees (s : TokenStream) (scope : Scope) (index : Nat) :
  AgreesAt s scope index
  := by
  -- The induction is on the number of tokens left, as a remembered group is jumped over at once.
  induction left : s.tokens.length - index using Nat.strongRecOn generalizing index with
  | ind n ih =>
    cases rest : s.tokens.drop index with
    | nil => exact agreesAt_end rest
    | cons t us =>
      intro opened first colons memory sound allOpen
      have lt : index < s.tokens.length := by
        by_contra ge
        rw [List.drop_eq_nil_of_le (by omega)] at rest
        cases rest
      have further (index') (gt : index < index') : AgreesAt s scope index' :=
        ih (s.tokens.length - index') (by omega) index' rfl
      have inside : (!opened.isEmpty) = decide (0 < opened.length) := by
        cases opened <;> rfl
      rw [rest]
      cases length : openerLength s.ending (!opened.isEmpty) t us with
      | error f =>
        rw [surveyFrom, plainSurveyFrom, ← inside, length]
        exact ⟨rfl, Ensures.error⟩
      | ok n =>
        obtain ⟨g, openedBy, rfl, shown⟩ | ⟨rfl, unopened⟩ := openerLength_eq_ok length
        · exact agreesAt_opened rest openedBy shown sound allOpen further
        · rw [surveyFrom, plainSurveyFrom, ← inside, length]
          apply Agrees.bind (x := turn s.ending scope (!opened.isEmpty) first colons t us)
          exact agreesAt_turn rest unopened sound allOpen further

/-- With a sound memory the form of a statement is the one that the plain survey tells. -/
theorem survey_agreesPlain (sound : memory.Sound s) (scope : Scope) (index : Nat) :
  Agrees s (survey s.ending scope index memory (s.tokens.drop index))
    (plainSurvey s.ending scope (s.tokens.drop index))
  := surveyFrom_agrees s scope index sound (AllOpen.nil _ _)

end Agreement

end Statement

end LosslessScss
