import LosslessScss.Output
import LosslessScss.Proofs.Json
import LosslessScss.Proofs.Tiling

/-!
# What an output tells

Both JSON forms of a node, the one with places and the one without, tell its type and its value, and
these tell the text of the node in the source (`Node.written_eq_of_describes`).  So an output of any
kind but a check tells the source (`output_injective`).
-/

namespace LosslessScss

/-! ### Objects -/

namespace Json

variable {k k' : String} {v w : Json} {ms : List (String × Json)}

theorem get?_put_self (k : String) (v : Json) (ms : List (String × Json)) :
  get? k (put k v ms) = some v
  := by
  fun_induction put k v ms with
  | case1 | case2 | case3 => simp [get?]
  | case4 k' v' ms _ other ih => simpa [get?, Ne.symm other] using ih

theorem get?_put_ne (other : k' ≠ k) (v : Json) (ms : List (String × Json)) :
  get? k (put k' v ms) = get? k ms
  := by
  fun_induction put k' v ms with
  | case1 | case2 => simp [get?, other]
  | case3 => simp [get?, other]
  | case4 k'' v' ms _ _ ih =>
    by_cases same : k'' = k
    · simp [get?, same]
    · simpa [get?, same] using ih

theorem forall_mem_put {P : String × Json → Prop} (own : P (k, v)) (others : ∀ m ∈ ms, P m) :
  ∀ m ∈ put k v ms, P m
  := by
  fun_induction put k v ms with
  | case1 => exact List.forall_mem_singleton.mpr own
  | case2 => exact List.forall_mem_cons.mpr ⟨own, others⟩
  | case3 =>
    obtain ⟨_, others⟩ := List.forall_mem_cons.mp others
    exact List.forall_mem_cons.mpr ⟨own, others⟩
  | case4 _ _ _ _ _ ih =>
    obtain ⟨first, others⟩ := List.forall_mem_cons.mp others
    exact List.forall_mem_cons.mpr ⟨first, ih others⟩

/-- A member is not changed by members with other keys. -/
theorem get?_foldl_put (others : List (String × Json)) (free : ∀ m ∈ others, m.1 ≠ k) :
  get? k (others.foldl (fun sorted (key, value) => put key value sorted) ms) = get? k ms
  := by
  induction others generalizing ms with
  | nil => rfl
  | cons m others ih =>
    obtain ⟨first, free⟩ := List.forall_mem_cons.mp free
    rw [List.foldl_cons, ih free, get?_put_ne first]

/-- An object of plain values is plain. -/
theorem Plain.ofMembers {ms : List (String × Json)} (plain : ∀ m ∈ ms, Plain m.2) :
  Plain (.ofMembers ms)
  := by
  apply Plain.object
  have none : ∀ m ∈ ([] : List (String × Json)), Plain m.2 := nofun
  generalize [] = sorted at none ⊢
  induction ms generalizing sorted with
  | nil => exact none
  | cons m ms ih =>
    obtain ⟨first, plain⟩ := List.forall_mem_cons.mp plain
    exact ih plain _ (forall_mem_put first none)

end Json

/-! ### Forms of nodes -/

open Json

/-- A plain value tells a node: it is an object with the type of the node, and with its text or the
values that tell its children. -/
inductive Json.Describes : Json → Node → Prop where
  | leaf {ms t} (plain : Plain (.object ms)) (kind : get? "type" ms = some (.string t.kind.name))
      (text : get? "value" ms = some (.string t.text)) : Describes (.object ms) (.leaf t)
  | branch {ms k vs ns p q} (plain : Plain (.object ms))
      (kind : get? "type" ms = some (.string k.name))
      (value : get? "value" ms = some (.array vs)) (children : List.Forall₂ Describes vs ns) :
      Describes (.object ms) (.branch k ns p q)

theorem Json.Describes.plain {v : Json} {n : Node} (describes : v.Describes n) :
  Plain v
  := by
  cases describes with
  | leaf plain | branch plain => exact plain

theorem plain_of_describes {vs : List Json} {ns : List Node}
    (describes : List.Forall₂ Describes vs ns) :
  ∀ v ∈ vs, Plain v
  := by
  induction describes with
  | nil => exact nofun
  | cons first _ ih => exact List.forall_mem_cons.mpr ⟨first.plain, ih⟩

namespace Node

theorem kind_eq_of_name {k l : Kind} (same : k.name = l.name) :
  k = l
  := by
  have found := congrArg Kind.ofName? same
  rw [Kind.ofName?_name, Kind.ofName?_name] at found
  exact Option.some.inj found

mutual

/-- Nodes that one value tells have the same text. -/
theorem written_eq_of_describes {v : Json} (m n : Node) (first : v.Describes m)
    (second : v.Describes n) :
  m.written = n.written
  := by
  have member {ms : List (String × Json)} {k : String} {v w : Json} (first : get? k ms = some v)
      (second : get? k ms = some w) : v = w := Option.some.inj (first.symm.trans second)
  cases first with
  | leaf _ kind text =>
    cases second with
    | leaf _ kind' text' =>
      have kinds := kind_eq_of_name (Json.string.inj (member kind kind'))
      have texts := Json.string.inj (member text text')
      rw [written, written, Token.written, Token.written, kinds, texts]
    | branch _ _ value => cases member text value
  | @branch _ _ vs ms _ _ _ kind value children =>
    cases second with
    | leaf _ _ text => cases member text value
    | @branch _ _ _ ns _ _ _ kind' value' children' =>
      have kinds := kind_eq_of_name (Json.string.inj (member kind kind'))
      obtain rfl := Json.array.inj (member value value')
      rw [written, written, kinds, texts_eq_of_describes ms ns children children']

theorem texts_eq_of_describes {vs : List Json} (ms ns : List Node)
    (first : List.Forall₂ Describes vs ms) (second : List.Forall₂ Describes vs ns) :
  texts ms = texts ns
  := by
  cases first with
  | nil =>
    cases second
    rfl
  | @cons v m vs ms one others =>
    cases second with
    | @cons _ n _ ns one' others' =>
      rw [texts, texts, written_eq_of_describes m n one one',
        texts_eq_of_describes ms ns others others']

end

end Node

/-- The members that describe a place of a node do not take the place of its type and its value. -/
theorem Json.get?_ofMembers {v w : Json} {others : List (String × Json)}
    (free : ∀ m ∈ others, m.1 ≠ "type" ∧ m.1 ≠ "value") :
  ∃ ms, Json.ofMembers (("type", v) :: ("value", w) :: others) = .object ms ∧
    get? "type" ms = some v ∧ get? "value" ms = some w
  := by
  refine ⟨_, rfl, ?_, ?_⟩
  · rw [List.foldl_cons, List.foldl_cons, get?_foldl_put others fun m mem => (free m mem).1,
      get?_put_ne (by decide), get?_put_self]
  · rw [List.foldl_cons, List.foldl_cons, get?_foldl_put others fun m mem => (free m mem).2,
      get?_put_self]

namespace Node

theorem plain_position (p : Position) :
  Plain p.toJson
  := by
  apply Plain.ofMembers
  simp only [List.forall_mem_cons]
  exact ⟨.natural _, .natural _, .natural _, .natural _, nofun⟩

/-- Both forms of a token tell it. -/
theorem describes_leaf (t : Token) {others : List (String × Json)}
    (free : ∀ m ∈ others, m.1 ≠ "type" ∧ m.1 ≠ "value") (plain : ∀ m ∈ others, Plain m.2) :
  Describes (.ofMembers (("type", .string t.kind.name) :: ("value", .string t.text) :: others))
    (.leaf t)
  := by
  have whole : Plain (.ofMembers
      (("type", .string t.kind.name) :: ("value", .string t.text) :: others)) := by
    apply Plain.ofMembers
    simp only [List.forall_mem_cons]
    exact ⟨.string _, .string _, plain⟩
  obtain ⟨ms, object, kind, text⟩ := Json.get?_ofMembers free
  rw [object] at whole ⊢
  exact .leaf whole kind text

theorem describes_branch {k : Kind} {vs : List Json} {ns : List Node} {p q : Position}
    {others : List (String × Json)} (children : List.Forall₂ Describes vs ns)
    (free : ∀ m ∈ others, m.1 ≠ "type" ∧ m.1 ≠ "value") (plain : ∀ m ∈ others, Plain m.2) :
  Describes (.ofMembers (("type", .string k.name) :: ("value", .array vs) :: others))
    (.branch k ns p q)
  := by
  have whole : Plain (.ofMembers (("type", .string k.name) :: ("value", .array vs) :: others)) := by
    apply Plain.ofMembers
    simp only [List.forall_mem_cons]
    exact ⟨.string _, .array (plain_of_describes children), plain⟩
  obtain ⟨ms, object, kind, value⟩ := Json.get?_ofMembers free
  rw [object] at whole ⊢
  exact .branch whole kind value children

mutual

/-- The shape of a node tells the node. -/
theorem describes_shape (n : Node) :
  Describes n.shape n
  := by
  cases n with
  | leaf t => exact describes_leaf t nofun nofun
  | branch k ns p q => exact describes_branch (describe_shapes ns) nofun nofun

theorem describe_shapes (ns : List Node) :
  List.Forall₂ Describes (shapes ns) ns
  := by
  cases ns with
  | nil => exact .nil
  | cons n ns => exact .cons (describes_shape n) (describe_shapes ns)

end

/-- Two places do not tell the type or the value of a node. -/
theorem places_free (p q : Position) :
  ∀ m ∈ [("start", p.toJson), ("next", q.toJson)], m.1 ≠ "type" ∧ m.1 ≠ "value"
  := by
  simp

theorem plain_places (p q : Position) :
  ∀ m ∈ [("start", p.toJson), ("next", q.toJson)], Plain m.2
  := by
  simp [plain_position]

mutual

/-- The form of a node with its places tells the node. -/
theorem describes_located (n : Node) :
  Describes n.located n
  := by
  cases n with
  | leaf t => exact describes_leaf t (places_free _ _) (plain_places _ _)
  | branch k ns p q =>
    exact describes_branch (describe_locatedList ns) (places_free p q) (plain_places p q)

theorem describe_locatedList (ns : List Node) :
  List.Forall₂ Describes (locatedList ns) ns
  := by
  cases ns with
  | nil => exact .nil
  | cons n ns => exact .cons (describes_located n) (describe_locatedList ns)

end

end Node

/-! ### Outputs -/

namespace Settings

/-- A plain value is told by its text. -/
theorem render_injective (c : Settings) {v w : Json} (plain : Plain v) (plain' : Plain w)
    (same : c.render v = c.render w) :
  v = w
  := by
  unfold render at same
  split at same
  · exact pretty_injective plain plain' same
  · exact compact_injective plain plain' same

theorem describes_node (c : Settings) (n : Node) :
  Describes (c.node n) n
  := by
  unfold node
  split
  · exact n.describes_located
  · exact n.describes_shape

theorem describe_tokens (c : Settings) (ts : List Token) :
  List.Forall₂ Describes (ts.map c.token) (ts.map .leaf)
  := by
  rw [List.forall₂_map_left_iff, List.forall₂_map_right_iff, List.forall₂_same]
  intro t _
  exact c.describes_node (.leaf t)

/-- Trees with the same output have the same text. -/
theorem written_eq_of_render (c : Settings) {m n : Node}
    (same : c.render (c.node m) = c.render (c.node n)) :
  m.written = n.written
  := by
  have first := c.describes_node m
  have second := c.describes_node n
  rw [c.render_injective first.plain second.plain same] at first
  exact Node.written_eq_of_describes m n first second

/-- Tokens with the same output have the same text. -/
theorem spelling_eq_of_render (c : Settings) {ts us : List Token}
    (same : c.render (.array (ts.map c.token)) = c.render (.array (us.map c.token))) :
  spelling ts = spelling us
  := by
  have first := c.describe_tokens ts
  have second := c.describe_tokens us
  have values := c.render_injective (.array (plain_of_describes first))
    (.array (plain_of_describes second)) same
  rw [Json.array.inj values] at first
  rw [← toList_texts_leaves, ← toList_texts_leaves, Node.texts_eq_of_describes _ _ first second]

section Modes

variable {c : Settings} {source x : String}

theorem written_of_parsed {n : Node} (parsed : parse source = .ok n) :
  n.written = source
  := by
  apply String.toList_injective
  exact (Lexer.stands_ofCursor (.ofString source)).written_parse parsed

/-- An output of a tree is the form of a node with the text of the source. -/
theorem output_tree (tree : c.emission = .tree) (output : c.output source = .ok x) :
  ∃ n : Node, x = c.render (c.node n) ∧ n.written = source
  := by
  rw [Settings.output, tree] at output
  cases parsed : parse source with
  | error => simp only [parsed] at output; cases output
  | ok n =>
    simp only [parsed] at output
    exact ⟨n, (Except.ok.inj output).symm, written_of_parsed parsed⟩

/-- An output of tokens is the form of tokens with the text of the source. -/
theorem output_tokens (tokens : c.emission = .tokens) (output : c.output source = .ok x) :
  ∃ ts : List Token, x = c.render (.array (ts.map c.token)) ∧ spelling ts = source.toList
  := by
  rw [Settings.output, tokens] at output
  cases tokenized : tokenize source with
  | error => simp only [tokenized] at output; cases output
  | ok ts =>
    simp only [tokenized] at output
    exact ⟨ts, (Except.ok.inj output).symm, (laid_of_tokenize tokenized).2.1⟩

/-- An output of a source is the source. -/
theorem output_source (sources : c.emission = .source) (output : c.output source = .ok x) :
  x = source
  := by
  rw [Settings.output, sources] at output
  cases parsed : parse source with
  | error => simp only [parsed] at output; cases output
  | ok n =>
    simp only [parsed] at output
    exact (Except.ok.inj output).symm.trans (written_of_parsed parsed)

end Modes

end Settings

/-- An output of a tree, of tokens or of a source tells the source: with the same settings no two
sources have the same one. -/
theorem output_injective (c : Settings) (noCheck : c.emission ≠ .check) (a b x : String)
    (first : c.output a = .ok x) (second : c.output b = .ok x) :
  a = b
  := by
  cases emission : c.emission with
  | tree =>
    obtain ⟨m, rfl, written⟩ := Settings.output_tree emission first
    obtain ⟨n, same, written'⟩ := Settings.output_tree emission second
    rw [← written, ← written', c.written_eq_of_render same]
  | tokens =>
    obtain ⟨ts, rfl, spelled⟩ := Settings.output_tokens emission first
    obtain ⟨us, same, spelled'⟩ := Settings.output_tokens emission second
    apply String.toList_injective
    rw [← spelled, ← spelled', c.spelling_eq_of_render same]
  | source =>
    rw [← Settings.output_source emission first, Settings.output_source emission second]
  | check => exact absurd emission noCheck

/-- The tokens of a source with a character that is escaped in JSON texts. -/
theorem output_injective_tokens :
  (Settings.mk .tokens false false .warn).output "a'\"'" =
      .ok ("[\x7b\"type\":\"identifier\",\"value\":\"a\"\x7d,"
        ++ "\x7b\"type\":\"string_single\",\"value\":\"\\\"\"\x7d]") ∧
    ∀ source, (Settings.mk .tokens false false .warn).output source =
      .ok ("[\x7b\"type\":\"identifier\",\"value\":\"a\"\x7d,"
        ++ "\x7b\"type\":\"string_single\",\"value\":\"\\\"\"\x7d]") → source = "a'\"'"
  := by
  have output : (Settings.mk .tokens false false .warn).output "a'\"'" =
      .ok ("[\x7b\"type\":\"identifier\",\"value\":\"a\"\x7d,"
        ++ "\x7b\"type\":\"string_single\",\"value\":\"\\\"\"\x7d]") := by
    decide +kernel
  exact ⟨output, fun source same => output_injective _ (by decide) source _ _ same output⟩

end LosslessScss
