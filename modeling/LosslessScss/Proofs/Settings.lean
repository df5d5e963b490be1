import LosslessScss.CommandLine

/-!
# The layers of the settings

A setting is a field of the settings: it has a key in settings files, the values that stand for
it there, and what the arguments of a call set it to.  A settings file changes the fields in
their order up to the first invalid one (`Settings.update_object`), the arguments change those
that are given.  So after any number of such steps a field is what the last step that sets it
sets it to (`Settings.get_after_last`).  A call has settings unless its settings file is refused
(`Settings.load_fails_iff`).
-/

namespace LosslessScss

/-! ### Fields -/

/-- A value names a text: it is that text, or an object whose only key it is, with the value
null. -/
inductive Json.Names : Json → String → Prop where
  | text {name} : Names (.string name) name
  | variant {name} : Names (.object [(name, .null)]) name

/-- The settings one by one. -/
inductive Settings.Field where
  | emission
  | positions
  | pretty
  | logLevel
  deriving DecidableEq

namespace Settings.Field

/-- The fields in the order in which a settings file changes them. -/
def all : List Field := [emission, positions, pretty, logLevel]

/-- The key of a field. -/
def key : Field → String
  | emission => "emit"
  | positions => "positions"
  | pretty => "pretty"
  | logLevel => "logLevel"

/-- What a field may be set to. -/
def Value : Field → Type
  | emission => Emission
  | positions | pretty => Bool
  | logLevel => LogLevel

/-- A field of the settings. -/
def get (c : Settings) : (f : Field) → f.Value
  | emission => c.emission
  | positions => c.positions
  | pretty => c.pretty
  | logLevel => c.logLevel

/-- What the arguments of a call set a field to, if they set it; a flag is never set to false. -/
def given (a : Arguments) : (f : Field) → Option f.Value
  | emission => a.emission
  | positions => if a.positions then some true else none
  | pretty => if a.pretty then some true else none
  | logLevel => a.logLevel

/-- The value under the key of a field stands for what the field is to be set to. -/
def Tells (v : Json) : (f : Field) → f.Value → Prop
  | emission, e => v.Names e.name
  | positions, b => v = .bool b
  | pretty, b => v = .bool b
  | logLevel, l => v.Names l.name

/-- The value is valid for a field. -/
def Admits (f : Field) (v : Json) : Prop := ∃ x, f.Tells v x

/-- The value of a field among the members of an object is valid if there is one. -/
def Valid (members : List (String × Json)) (f : Field) : Prop :=
  ∀ v, Json.get? f.key members = some v → f.Admits v

/-- The settings after a field has been set. -/
def set (c : Settings) : (f : Field) → f.Value → Settings
  | emission, e => { c with emission := e }
  | positions, b => { c with positions := b }
  | pretty, b => { c with pretty := b }
  | logLevel, l => { c with logLevel := l }

/-- What a value stands for under the key of a field, unless it is invalid. -/
def read? (v : Json) : (f : Field) → Option f.Value
  | emission => (choice? v).bind Emission.ofName?
  | positions | pretty => flag? v
  | logLevel => (choice? v).bind LogLevel.ofName?

theorem mem_all (f : Field) :
  f ∈ all
  := by
  cases f <;> decide

theorem mem_keys {k : String} :
  k ∈ keys ↔ ∃ f : Field, f.key = k
  := by
  constructor
  · intro mem
    obtain ⟨f, _, key⟩ := List.mem_map.mp (show k ∈ all.map key from mem)
    exact ⟨f, key⟩
  · rintro ⟨f, rfl⟩
    exact List.mem_map_of_mem f.mem_all

theorem get_set_self (c : Settings) (f : Field) (x : f.Value) :
  get (set c f x) f = x
  := by
  cases f <;> rfl

theorem get_set_ne (c : Settings) {f g : Field} (other : g ≠ f) (x : f.Value) :
  get (set c f x) g = get c g
  := by
  cases f <;> cases g <;> first | rfl | exact absurd rfl other

theorem choice?_eq_some_iff {v : Json} {name : String} :
  choice? v = some name ↔ v.Names name
  := by
  constructor
  · intro chosen
    unfold choice? at chosen
    split at chosen
    case h_1 => cases chosen; exact .text
    case h_2 => cases chosen; exact .variant
    case h_3 => cases chosen
  · rintro (_ | _) <;> rfl

/-- What is found by its name is what the value names. -/
theorem chosen_iff {α : Type} {all : List α} {name : α → String}
    (distinct : ∀ x, (all.find? (name · == name x)) = some x) {v : Json} {x : α} :
  ((choice? v).bind fun n => all.find? (name · == n)) = some x ↔ v.Names (name x)
  := by
  rw [Option.bind_eq_some_iff]
  constructor
  · rintro ⟨n, chosen, found⟩
    obtain rfl : name x = n := beq_iff_eq.mp (List.find?_some (p := (name · == n)) found)
    exact choice?_eq_some_iff.mp chosen
  · intro names
    exact ⟨_, choice?_eq_some_iff.mpr names, distinct x⟩

theorem flag?_eq_some_iff {v : Json} {b : Bool} :
  flag? v = some b ↔ v = .bool b
  := by
  cases v <;> simp [flag?]

/-- A value stands for what is read. -/
theorem read?_eq_some_iff {f : Field} {v : Json} {x : f.Value} :
  f.read? v = some x ↔ f.Tells v x
  := by
  cases f with
  | emission => exact chosen_iff Emission.ofName?_name
  | logLevel => exact chosen_iff LogLevel.ofName?_name
  | positions | pretty => exact flag?_eq_some_iff

/-- Applying the value of a key sets the field with this key. -/
theorem applyKey?_key (c : Settings) (f : Field) (v : Json) :
  c.applyKey? f.key v = (f.read? v).map (set c f)
  := by
  cases f <;> exact (Option.map_eq_bind ..).symm

/-- An invalid value is not applied. -/
theorem applyKey?_eq_none_iff {c : Settings} {f : Field} {v : Json} :
  c.applyKey? f.key v = none ↔ ¬ f.Admits v
  := by
  rw [applyKey?_key, Option.map_eq_none_iff, Option.eq_none_iff_forall_ne_some]
  simp only [ne_eq, read?_eq_some_iff, Admits, not_exists]

/-- A value that is applied is what the field is then set to. -/
theorem applyKey?_eq_some {c c' : Settings} {f : Field} {v : Json}
    (applied : c.applyKey? f.key v = some c') :
  f.Tells v (get c' f) ∧ ∀ g ≠ f, get c' g = get c g
  := by
  rw [applyKey?_key] at applied
  obtain ⟨x, read, rfl⟩ := Option.map_eq_some_iff.mp applied
  constructor
  · rw [get_set_self]
    exact read?_eq_some_iff.mp read
  · intro g other
    exact get_set_ne c other x

/-! ### A settings file -/

/-- Settings that come from others by setting exactly the fields that have a value: to what this
value stands for. -/
structure Sets (value : Field → Json → Prop) (c c' : Settings) : Prop where
  told : ∀ f v, value f v → f.Tells v (get c' f)
  kept : ∀ f, (∀ v, ¬ value f v) → get c' f = get c f

theorem Sets.congr {value value' : Field → Json → Prop} {c c' : Settings} (sets : Sets value c c')
    (same : ∀ f v, value f v ↔ value' f v) :
  Sets value' c c'
  := by
  constructor
  · intro f v told
    exact sets.told f v ((same f v).mpr told)
  · intro f kept
    exact sets.kept f fun v told => kept v ((same f v).mp told)

/-- Of the given fields this one has a valid value, and so has each one before it that has any. -/
inductive Applied (members : List (String × Json)) : List Field → Field → Json → Prop where
  | here {f fs v} (present : Json.get? f.key members = some v) (admits : f.Admits v) :
      Applied members (f :: fs) f v
  | later {g fs f v} (valid : g.Valid members) (applied : Applied members fs f v) :
      Applied members (g :: fs) f v

/-- The failure of the first of the given fields that is invalid, if there is one. -/
inductive Stops (members : List (String × Json)) : List Field → Option SettingsFailure → Prop where
  | never {fs} (valid : ∀ f ∈ fs, f.Valid members) : Stops members fs none
  | first (before) {f later} (valid : ∀ g ∈ before, g.Valid members) (invalid : ¬ f.Valid members) :
      Stops members (before ++ f :: later) (some (.invalidKey f.key))

section Keys

variable {members : List (String × Json)} {f : Field} {fs : List Field} {v : Json}

theorem valid_of_absent (absent : Json.get? f.key members = none) :
  f.Valid members
  := by
  intro v present
  rw [absent] at present
  cases present

theorem valid_iff_admits (present : Json.get? f.key members = some v) :
  f.Valid members ↔ f.Admits v
  := by
  constructor
  · exact fun valid => valid v present
  · intro admits w present'
    rw [present] at present'
    cases present'
    exact admits

theorem Applied.admits (applied : Applied members fs f v) :
  f.Admits v
  := by
  induction applied with
  | here _ admits => exact admits
  | later _ _ ih => exact ih

theorem Applied.mem (applied : Applied members fs f v) :
  f ∈ fs ∧ Json.get? f.key members = some v
  := by
  induction applied with
  | here present => exact ⟨List.mem_cons_self, present⟩
  | later _ _ ih => exact ⟨List.mem_cons_of_mem _ ih.1, ih.2⟩

/-- Behind a field that is invalid none is applied. -/
theorem applied_cons_iff {g : Field} {w : Json} :
  Applied members (f :: fs) g w
    ↔ f.Valid members ∧
      (g = f ∧ Json.get? f.key members = some w ∨ Applied members fs g w)
  := by
  constructor
  · rintro (⟨present, admits⟩ | ⟨valid, applied⟩)
    · exact ⟨(valid_iff_admits present).mpr admits, .inl ⟨rfl, present⟩⟩
    · exact ⟨valid, .inr applied⟩
  · rintro ⟨valid, ⟨rfl, present⟩ | applied⟩
    · exact .here present (valid w present)
    · exact .later valid applied

/-- As long as no field is invalid each one that has a value is applied. -/
theorem applied_append_iff {later : List Field} {g : Field}
    (before : ∀ f ∈ fs, f.Valid members) :
  Applied members (fs ++ later) g v
    ↔ g ∈ fs ∧ Json.get? g.key members = some v ∨ Applied members later g v
  := by
  induction fs with
  | nil => simp
  | cons f fs ih =>
    obtain ⟨valid, before⟩ := List.forall_mem_cons.mp before
    rw [List.cons_append, applied_cons_iff, ih before, List.mem_cons]
    constructor
    · rintro ⟨-, ⟨rfl, present⟩ | ⟨mem, present⟩ | applied⟩
      · exact .inl ⟨.inl rfl, present⟩
      · exact .inl ⟨.inr mem, present⟩
      · exact .inr applied
    · rintro (⟨rfl | mem, present⟩ | applied)
      · exact ⟨valid, .inl ⟨rfl, present⟩⟩
      · exact ⟨valid, .inr (.inl ⟨mem, present⟩)⟩
      · exact ⟨valid, .inr (.inr applied)⟩

theorem Stops.cons {stop : Option SettingsFailure} (valid : f.Valid members)
    (stops : Stops members fs stop) :
  Stops members (f :: fs) stop
  := by
  cases stops with
  | never others => exact .never (List.forall_mem_cons.mpr ⟨valid, others⟩)
  | first before others invalid =>
    exact .first (f :: before) (List.forall_mem_cons.mpr ⟨valid, others⟩) invalid

/-- Applying the keys of the given fields sets each field that is applied, and stops at the first
field that is invalid. -/
theorem applyKeys_applied (c : Settings) (distinct : fs.Nodup) :
  Sets (Applied members fs) c (applyKeys members c (fs.map key)).2 ∧
    Stops members fs (applyKeys members c (fs.map key)).1
  := by
  induction fs generalizing c with
  | nil => exact ⟨⟨nofun, fun _ _ => rfl⟩, .never nofun⟩
  | cons f fs ih =>
    obtain ⟨new, distinct⟩ := List.nodup_cons.mp distinct
    rw [List.map_cons, applyKeys]
    cases present : Json.get? f.key members with
    | none =>
      obtain ⟨sets, stops⟩ := ih c distinct
      have same : Applied members (f :: fs) = Applied members fs := by
        funext g w
        simp [applied_cons_iff, present, valid_of_absent present]
      rw [same]
      exact ⟨sets, stops.cons (valid_of_absent present)⟩
    | some v =>
      dsimp only
      cases applied : c.applyKey? f.key v with
      | none =>
        have invalid : ¬ f.Valid members := by
          rw [valid_iff_admits present]
          exact applyKey?_eq_none_iff.mp applied
        refine ⟨⟨?_, fun _ _ => rfl⟩, .first [] nofun invalid⟩
        intro g w applied
        exact absurd (applied_cons_iff.mp applied).1 invalid
      | some c' =>
        obtain ⟨sets, stops⟩ := ih c' distinct
        obtain ⟨tells, others⟩ := applyKey?_eq_some applied
        have valid : f.Valid members := (valid_iff_admits present).mpr ⟨_, tells⟩
        refine ⟨⟨?_, ?_⟩, stops.cons valid⟩
        · intro g w applied
          obtain ⟨-, ⟨rfl, present'⟩ | applied⟩ := applied_cons_iff.mp applied
          · rw [present] at present'
            cases present'
            rw [sets.kept g fun w applied => new applied.mem.1]
            exact tells
          · exact sets.told g w applied
        · intro g none
          have other : g ≠ f := by
            rintro rfl
            exact none v (.here present ⟨_, tells⟩)
          rw [sets.kept g fun w applied => none w (.later valid applied), others g other]

end Keys

end Field

/-- The outcome of applying a value to settings, and the settings after that: all fields with a
value are set and the other keys told, those before the first invalid one are set, or no field is
set as the value is no object. -/
inductive Updates (c : Settings) : Json → Except SettingsFailure (List String) → Settings → Prop
    where
  | applied {members c'} (valid : ∀ f, Field.Valid members f)
      (sets : Field.Sets (fun f v => Json.get? f.key members = some v) c c') :
      Updates c (.object members)
        (.ok ((members.map Prod.fst).filter fun k => k ∉ Field.all.map Field.key)) c'
  | stopped {members before f later c'} (order : Field.all = before ++ f :: later)
      (valid : ∀ g ∈ before, g.Valid members) (invalid : ¬ f.Valid members)
      (sets : Field.Sets (fun g v => g ∈ before ∧ Json.get? g.key members = some v) c c') :
      Updates c (.object members) (.error (.invalidKey f.key)) c'
  | refused {v} (noObject : ∀ members, v ≠ .object members) :
      Updates c v (.error (.notAnObject v.compact)) c

/-- Applying an object sets the fields that are applied, up to the first invalid one. -/
theorem update_object (c : Settings) (members : List (String × Json)) :
  Field.Sets (Field.Applied members Field.all) c (c.update (.object members)).2 ∧
    Updates c (.object members) (c.update (.object members)).1 (c.update (.object members)).2
  := by
  obtain ⟨sets, stops⟩ :
      Field.Sets (Field.Applied members Field.all) c (applyKeys members c keys).2 ∧
        Field.Stops members Field.all (applyKeys members c keys).1 :=
    Field.applyKeys_applied c (by decide)
  rw [update]
  generalize applyKeys members c keys = r at sets stops
  obtain ⟨stop, c'⟩ := r
  refine ⟨by cases stop <;> exact sets, ?_⟩
  generalize order : Field.all = fs at sets stops
  cases stops with
  | never valid =>
    have all (f : Field) : f ∈ fs := order ▸ f.mem_all
    have others : (members.map Prod.fst).filter (fun k => !keys.contains k)
        = (members.map Prod.fst).filter fun k => k ∉ Field.all.map Field.key := by
      apply List.filter_congr
      intro k _
      rw [List.contains_eq_mem, ← decide_not]
      rfl
    dsimp only
    rw [others]
    refine .applied (fun f => valid f (all f)) (sets.congr ?_)
    intro f v
    constructor
    · exact fun applied => applied.mem.2
    · intro present
      rw [← List.append_nil fs]
      exact (Field.applied_append_iff valid).mpr (.inl ⟨all f, present⟩)
  | first before valid invalid =>
    refine .stopped order valid invalid (sets.congr ?_)
    intro g v
    rw [Field.applied_append_iff valid, Field.applied_cons_iff]
    simp [invalid]

theorem updates (c : Settings) (v : Json) :
  Updates c v (c.update v).1 (c.update v).2
  := by
  cases v with
  | object members => exact (c.update_object members).2
  | _ => exact .refused nofun

/-- Applying a value fails if it is no object or has an invalid field, and for no other reason. -/
theorem update_fails_iff {c : Settings} {v : Json} :
  (∃ e, (c.update v).1 = .error e)
    ↔ (∀ members, v ≠ .object members) ∨ ∃ members f, v = .object members ∧ ¬ Field.Valid members f
  := by
  have updates := c.updates v
  generalize (c.update v).1 = r, (c.update v).2 = c' at updates
  cases updates with
  | applied valid => simp [valid]
  | @stopped _ _ f _ _ _ _ invalid =>
    exact iff_of_true ⟨_, rfl⟩ (.inr ⟨_, f, rfl, invalid⟩)
  | refused noObject => exact iff_of_true ⟨_, rfl⟩ (.inl noObject)

/-- Only the values of the given keys matter when they are applied. -/
theorem applyKeys_congr {members others : List (String × Json)} {ks : List String}
    (same : ∀ k ∈ ks, Json.get? k members = Json.get? k others) (c : Settings) :
  applyKeys members c ks = applyKeys others c ks
  := by
  induction ks generalizing c with
  | nil => rfl
  | cons k ks ih =>
    obtain ⟨first, same⟩ := List.forall_mem_cons.mp same
    simp only [applyKeys, first, ih same]

/-- Unknown keys do not matter to the settings. -/
theorem update_congr {members others : List (String × Json)}
    (same : ∀ f : Field, Json.get? f.key members = Json.get? f.key others) (c : Settings) :
  (c.update (.object members)).2 = (c.update (.object others)).2
  := by
  have known : ∀ k ∈ keys, Json.get? k members = Json.get? k others := by
    intro k mem
    obtain ⟨f, rfl⟩ := Field.mem_keys.mp mem
    exact same f
  rw [update, update, applyKeys_congr known]
  cases applyKeys others c keys with
  | mk stop c' => cases stop <;> rfl

/-! ### Arguments -/

theorem get_override (c : Settings) (a : Arguments) (f : Field) :
  Field.get (c.override a) f = (f.given a).getD (Field.get c f)
  := by
  obtain ⟨files, emission, positions, pretty, logLevel, config⟩ := a
  cases f with
  | emission | logLevel => rfl
  | positions =>
    cases positions
    · exact Bool.or_false _
    · exact Bool.or_true _
  | pretty =>
    cases pretty
    · exact Bool.or_false _
    · exact Bool.or_true _

/-! ### Steps -/

/-- A change of settings: by a value, or by the arguments of a call. -/
inductive Step where
  | update (v : Json)
  | arguments (a : Arguments)

namespace Step

/-- The settings after a change; a value that is refused may have changed some of them. -/
def apply (c : Settings) : Step → Settings
  | update v => (c.update v).2
  | arguments a => c.override a

/-- A change sets a field: to what a value that is applied stands for, or to what is given. -/
inductive SetsTo (f : Field) : Step → f.Value → Prop where
  | update {members v x} (applied : f.Applied members Field.all v) (tells : f.Tells v x) :
      SetsTo f (.update (.object members)) x
  | arguments {a x} (given : f.given a = some x) : SetsTo f (.arguments a) x

variable {f : Field} {s : Step} {steps : List Step} {x : f.Value}

/-- A change that sets a field is what the field then is. -/
theorem get_apply (sets : s.SetsTo f x) (c : Settings) :
  Field.get (s.apply c) f = x
  := by
  cases sets with
  | @update members v _ applied tells =>
    have told := Field.read?_eq_some_iff.mpr ((c.update_object members).1.told f v applied)
    rw [Field.read?_eq_some_iff.mpr tells] at told
    exact (Option.some.inj told).symm
  | @arguments a _ given =>
    rw [apply, get_override, given]
    rfl

/-- A change that does not set a field leaves it as it is. -/
theorem get_apply_kept (kept : ∀ x, ¬ s.SetsTo f x) (c : Settings) :
  Field.get (s.apply c) f = Field.get c f
  := by
  cases s with
  | update v =>
    cases v with
    | object members =>
      apply (c.update_object members).1.kept
      intro v applied
      obtain ⟨x, tells⟩ := applied.admits
      exact kept x (.update applied tells)
    | _ => rfl
  | arguments a =>
    have none : f.given a = none := by
      rw [Option.eq_none_iff_forall_ne_some]
      exact fun x given => kept x (.arguments given)
    rw [apply, get_override, none]
    rfl

theorem get_foldl_kept (kept : ∀ s ∈ steps, ∀ x, ¬ s.SetsTo f x) (c : Settings) :
  Field.get (steps.foldl apply c) f = Field.get c f
  := by
  induction steps generalizing c with
  | nil => rfl
  | cons s steps ih =>
    obtain ⟨first, kept⟩ := List.forall_mem_cons.mp kept
    rw [List.foldl_cons, ih kept, get_apply_kept first]

end Step

/-- The settings after changes from the initial ones. -/
def after (steps : List Step) : Settings := steps.foldl Step.apply initial

/-- A field is what the last change that sets it sets it to. -/
theorem get_after_last {f : Field} {s : Step} {x : f.Value} (before : List Step)
    (sets : s.SetsTo f x) {later : List Step} (kept : ∀ s ∈ later, ∀ y, ¬ s.SetsTo f y) :
  Field.get (after (before ++ s :: later)) f = x
  := by
  rw [after, List.foldl_append, List.foldl_cons, Step.get_foldl_kept kept, Step.get_apply sets]

/-! ### The settings of a call -/

/-- The settings of a call with arguments and with a settings file of the given members: a field is
what the arguments set it to, or what the file does, or what it is initially; and a flag is the one
or the other. -/
structure Layered (a : Arguments) (members : List (String × Json)) (c : Settings) : Prop where
  given : ∀ f x, Field.given a f = some x → Field.get c f = x
  told : ∀ f v, Field.given a f = none → Json.get? f.key members = some v →
    f.Tells v (Field.get c f)
  initial : ∀ f, Field.given a f = none → Json.get? f.key members = none →
    Field.get c f = Field.get initial f
  positions : c.positions = true
    ↔ a.positions = true ∨ Json.get? "positions" members = some (.bool true)
  pretty : c.pretty = true ↔ a.pretty = true ∨ Json.get? "pretty" members = some (.bool true)

/-- A flag that is off initially is on if a file sets it to true. -/
theorem flag_iff {b : Bool} {value : Option Json} (told : ∀ v, value = some v → v = .bool b)
    (kept : (∀ v, value ≠ some v) → b = false) :
  b = true ↔ value = some (.bool true)
  := by
  cases value with
  | none => simp [kept nofun]
  | some v => simp [told v rfl]

/-- The arguments come over what a file sets. -/
theorem layered_override {members : List (String × Json)} {c : Settings}
    (sets : Field.Sets (fun f v => Json.get? f.key members = some v) initial c) (a : Arguments) :
  Layered a members (c.override a)
  := by
  constructor
  · intro f x given
    rw [get_override, given]
    rfl
  · intro f v none present
    rw [get_override, none]
    exact sets.told f v present
  · intro f none absent
    rw [get_override, none]
    apply sets.kept
    simp [absent]
  · rw [override, Bool.or_eq_true, or_comm]
    exact or_congr_right (flag_iff (sets.told .positions) (sets.kept .positions))
  · rw [override, Bool.or_eq_true, or_comm]
    exact or_congr_right (flag_iff (sets.told .pretty) (sets.kept .pretty))

/-- The settings of a call with a settings file that contains an object. -/
theorem load_eq {files : Files} {a : Arguments} {path text : String}
    {members : List (String × Json)} (config : a.config = some path) (read : files path = some text)
    (json : Json.ofString? maxJsonNesting text = some (.object members)) :
  load files a = match initial.update (.object members) with
    | (.error f, _) => .error f
    | (.ok unknown, c) => .ok (c.override a, unknown)
  := by
  rw [load, config]
  simp only [readFile, read, json]
  rcases initial.update (.object members) with ⟨_ | _, _⟩ <;> rfl

/-- The settings file at a path is refused: there is none, it is no JSON text, its value is no
object, or a field is invalid there. -/
inductive Refuses (files : Files) (path : String) : Prop where
  | missing (absent : files path = none)
  | noJson {text} (read : files path = some text)
      (noJson : Json.ofString? maxJsonNesting text = none)
  | noObject {text v} (read : files path = some text)
      (json : Json.ofString? maxJsonNesting text = some v)
      (noObject : ∀ members, v ≠ .object members)
  | invalid {text members f} (read : files path = some text)
      (json : Json.ofString? maxJsonNesting text = some (.object members))
      (invalid : ¬ Field.Valid members f)

/-- Reading a settings file fails exactly if it is refused. -/
theorem readFile_fails_iff {c : Settings} {files : Files} {path : String} :
  (∃ e, c.readFile files path = .error e) ↔ Refuses files path
  := by
  rw [readFile]
  cases read : files path with
  | none => exact iff_of_true ⟨_, rfl⟩ (.missing read)
  | some text =>
    dsimp only
    cases json : Json.ofString? maxJsonNesting text with
    | none => exact iff_of_true ⟨_, rfl⟩ (.noJson read json)
    | some v =>
      have fails : (∃ e, (c.update v).1 = .error e) ↔ Refuses files path := by
        rw [update_fails_iff]
        constructor
        · rintro (noObject | ⟨members, f, rfl, invalid⟩)
          · exact .noObject read json noObject
          · exact .invalid read json invalid
        · rintro (absent | ⟨read', noJson⟩ | ⟨read', json', noObject⟩ | ⟨read', json', invalid⟩)
          · rw [read] at absent
            cases absent
          all_goals obtain rfl := Option.some.inj (read.symm.trans read')
          · rw [json] at noJson
            cases noJson
          all_goals obtain rfl := Option.some.inj (json.symm.trans json')
          · exact .inl noObject
          · exact .inr ⟨_, _, rfl, invalid⟩
      rw [← fails]
      dsimp only
      generalize c.update v = r
      obtain ⟨_ | _, _⟩ := r <;> simp

/-- There are no settings exactly if the arguments tell a settings file that is refused. -/
theorem load_fails_iff {files : Files} {a : Arguments} :
  (∃ e, load files a = .error e) ↔ ∃ path, a.config = some path ∧ Refuses files path
  := by
  rw [load]
  cases a.config with
  | none => exact iff_of_false nofun nofun
  | some path =>
    simp only [Option.some.injEq, exists_eq_left', ← readFile_fails_iff (c := initial)]
    generalize initial.readFile files path = r
    cases r with
    | error e => exact iff_of_true ⟨e, rfl⟩ ⟨e, rfl⟩
    | ok => exact iff_of_false nofun nofun

/-- There are settings if all fields are valid, and they come in layers. -/
theorem load_layered {files : Files} {a : Arguments} {path text : String}
    {members : List (String × Json)} (config : a.config = some path) (read : files path = some text)
    (json : Json.ofString? maxJsonNesting text = some (.object members)) :
  ((∃ r, load files a = .ok r) ↔ ∀ f, Field.Valid members f) ∧
    ∀ c unknown, load files a = .ok (c, unknown) → c.Layered a members ∧
      unknown = (members.map Prod.fst).filter fun k => k ∉ Field.all.map Field.key
  := by
  have updates := initial.updates (.object members)
  rw [load_eq config read json]
  generalize initial.update (.object members) = r at updates
  obtain ⟨outcome, c'⟩ := r
  cases updates with
  | applied valid sets =>
    refine ⟨iff_of_true ⟨_, rfl⟩ valid, ?_⟩
    rintro c unknown ⟨⟩
    exact ⟨layered_override sets a, rfl⟩
  | stopped _ _ invalid =>
    refine ⟨iff_of_false nofun fun valid => invalid (valid _), ?_⟩
    rintro c unknown ⟨⟩
  | refused noObject => exact absurd rfl (noObject members)

end Settings

/-- Values and arguments change the settings in layers.  Applying a value fails exactly if it is no
object or has an invalid known key, and it sets the known keys before the first invalid one,
whatever the unknown ones are; arguments set what is given and turn no flag off; so after any such
changes a field is what the last one that sets it sets it to, and with none it is as initially.  A
call with a settings file that contains an object has settings exactly if all known keys are
valid, and then these are what its arguments, the file and the initial settings make them. -/
theorem settings_layered :
  (∀ (c : Settings) v,
      ((∃ e, (c.update v).1 = .error e) ↔
        (∀ members, v ≠ .object members) ∨
          ∃ members f, v = .object members ∧ ¬ Settings.Field.Valid members f) ∧
      c.Updates v (c.update v).1 (c.update v).2) ∧
    (∀ (c : Settings) members others,
      (∀ f : Settings.Field, Json.get? f.key members = Json.get? f.key others) →
        (c.update (.object members)).2 = (c.update (.object others)).2) ∧
    (∀ (c : Settings) a,
      (c.override a).emission = a.emission.getD c.emission ∧
      (c.override a).logLevel = a.logLevel.getD c.logLevel ∧
      ((c.override a).positions = true ↔ c.positions = true ∨ a.positions = true) ∧
      ((c.override a).pretty = true ↔ c.pretty = true ∨ a.pretty = true)) ∧
    (∀ (f : Settings.Field) before s x later, Settings.Step.SetsTo f s x →
      (∀ s' ∈ later, ∀ y, ¬ Settings.Step.SetsTo f s' y) →
        f.get (Settings.after (before ++ s :: later)) = x) ∧
    (∀ (f : Settings.Field) steps, (∀ s ∈ steps, ∀ y, ¬ Settings.Step.SetsTo f s y) →
      f.get (Settings.after steps) = f.get .initial) ∧
    ∀ files (a : Arguments) path text members, a.config = some path → files path = some text →
      Json.ofString? maxJsonNesting text = some (.object members) →
        ((∃ r, Settings.load files a = .ok r) ↔ ∀ f, Settings.Field.Valid members f) ∧
        ∀ c unknown, Settings.load files a = .ok (c, unknown) → c.Layered a members ∧
          unknown = (members.map Prod.fst).filter
            fun k => k ∉ Settings.Field.all.map Settings.Field.key
  := by
  refine ⟨?_, ?_, ?_, ?_, ?_, ?_⟩
  · intro c v
    exact ⟨Settings.update_fails_iff, c.updates v⟩
  · intro c members others same
    exact Settings.update_congr same c
  · intro c a
    exact ⟨rfl, rfl, iff_of_eq (Bool.or_eq_true _ _), iff_of_eq (Bool.or_eq_true _ _)⟩
  · intro f before s x later sets kept
    exact Settings.get_after_last before sets kept
  · intro f steps kept
    exact Settings.Step.get_foldl_kept kept .initial
  · intro files a path text members config read json
    exact Settings.load_layered config read json

/-- A file turns on what the arguments do not mention, and they replace what it chooses; a value
turns off what earlier arguments have turned on. -/
theorem settings_layered_file :
  let text := "\x7b\"color\":null,\"emit\":\"tree\",\"positions\":true\x7d"
  let a : Arguments := { Arguments.none with emission := some .source, config := some "c" }
  let flag : Arguments := { Arguments.none with positions := true }
  (∃ c, Settings.load (fun _ => some text) a = .ok (c, ["color"]) ∧ c.emission = .source ∧
      c.positions = true) ∧
    (Settings.after [.arguments flag, .update (.object [("positions", .bool false)])]).positions
      = false
  := by
  intro text a flag
  obtain ⟨_, _, _, last, _, load⟩ := settings_layered
  constructor
  · have lexemes : Json.lexemes? text.toList
        = some [.mark '\x7b', .scalar (.string "color"), .mark ':', .scalar .null, .mark ',',
          .scalar (.string "emit"), .mark ':', .scalar (.string "tree"), .mark ',',
          .scalar (.string "positions"), .mark ':', .scalar (.bool true), .mark '\x7d'] := by
      simp [text, Json.lexemes?_cons, Json.lexemes?, Json.lexeme?, Json.word?, Json.unescape?,
        Text.splitQuoted]
    have json : Json.ofString? maxJsonNesting text = some (.object
        [("color", .null), ("emit", .string "tree"), ("positions", .bool true)]) := by
      rw [Json.ofString?, lexemes]
      rfl
    have valid : ∀ f, Settings.Field.Valid
        [("color", .null), ("emit", .string "tree"), ("positions", .bool true)] f := by
      rintro (_ | _ | _ | _) v ⟨⟩
      · exact ⟨Emission.tree, .text⟩
      · exact ⟨true, rfl⟩
    obtain ⟨loads, layered⟩ := load (fun _ => some text) a "c" text _ rfl rfl json
    obtain ⟨⟨c, unknown⟩, loaded⟩ := loads.mpr valid
    obtain ⟨layers, rfl⟩ := layered c unknown loaded
    exact ⟨c, loaded, layers.given .emission _ rfl, layers.positions.mpr (.inr rfl)⟩
  · have applied : Settings.Field.Applied [("positions", .bool false)] Settings.Field.all .positions
        (.bool false) :=
      .later (Settings.Field.valid_of_absent rfl) (.here rfl ⟨false, rfl⟩)
    exact last .positions [.arguments flag] _ false [] (.update applied rfl)
      (List.forall_mem_nil _)

end LosslessScss
