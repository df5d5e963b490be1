import LosslessScss.Proofs.Origin
import LosslessScss.Proofs.Places
import LosslessScss.Proofs.RoundTrip
import Mathlib.Data.List.Chain

/-!
# The places of the nodes of a tree

The nodes of a syntax tree lie side by side, as its tokens do.  `Node.Tile p ns q` says that the
nodes `ns` extend from the place `p` up to `q` without a gap, each of them being tiled by its own
children between its delimiters.  The nodes that a phrase makes up extend as far as the tokens that
it takes (`Derives.covers`), and so every place in a tree is a place of the text.
-/

namespace LosslessScss

/-! ### Tiled nodes -/

namespace Node

mutual

/-- A node extends over its text: a leaf over that of its token, and a branch over its children with
its delimiters around them. -/
def Tiled : Node → Prop
  | leaf t => t.stop = t.start.after t.lexeme.written
  | branch k ns p q => ∃ r, Tile (p.after k.opening.toList) ns r ∧ q = r.after k.closing.toList

/-- The nodes `ns` follow each other from the place `p` on up to `q`, and each of them is tiled. -/
def Tile (p : Position) : List Node → Position → Prop
  | [], q => p = q
  | n :: ns, q => n.start = p ∧ n.Tiled ∧ Tile n.stop ns q

end

namespace Tile

variable {ms ns : List Node} {n : Node} {t : Token} {p q r : Position} {k : Kind}

theorem nil (p : Position) :
  Tile p [] p
  := by
  rw [Tile]

theorem cons (tiled : n.Tiled) (others : Tile n.stop ns q) :
  Tile n.start (n :: ns) q
  := by
  rw [Tile]
  exact ⟨rfl, tiled, others⟩

theorem uncons (tile : Tile p (n :: ns) q) :
  n.start = p ∧ n.Tiled ∧ Tile n.stop ns q
  := by
  rwa [Tile] at tile

theorem single (tile : Tile p [n] q) :
  n.start = p ∧ n.Tiled ∧ n.stop = q
  := by
  obtain ⟨start, tiled, others⟩ := tile.uncons
  rw [Tile] at others
  exact ⟨start, tiled, others⟩

theorem append (first : Tile p ms q) (second : Tile q ns r) :
  Tile p (ms ++ ns) r
  := by
  induction ms generalizing p with
  | nil =>
    rw [Tile] at first
    exact first ▸ second
  | cons m ms ih =>
    obtain ⟨rfl, tiled, others⟩ := first.uncons
    exact cons tiled (ih others)

theorem branch (inside : Tile (p.after k.opening.toList) ns r) :
  Tile p [.branch k ns p (r.after k.closing.toList)] (r.after k.closing.toList)
  := by
  apply cons
  · rw [Tiled]
    exact ⟨r, inside, rfl⟩
  · exact nil _

/-- A node without a closing delimiter ends with its children. -/
theorem unclosed (inside : Tile (p.after k.opening.toList) ns r) (closing : k.closing = "") :
  Tile p [.branch k ns p r] r
  := by
  have whole := inside.branch
  rw [closing] at whole
  exact whole

/-- Nodes that follow each other end where the last one does. -/
theorem getLast?_stop (tile : Tile p ns q) :
  (ns.getLast?.map stop).getD p = q
  := by
  induction ns generalizing p with
  | nil => rwa [Tile] at tile
  | cons n ns ih =>
    obtain ⟨_, _, others⟩ := tile.uncons
    rw [Likeness.getLast?_map_stop]
    exact ih others

/-- A node without delimiters extends as far as its children do; without any it stands at the place
where they would. -/
theorem spanning (inside : Tile p ns q) (k : Kind) (opening : k.opening = "")
    (closing : k.closing = "") :
  Tile p [.spanning k ns p] q
  := by
  have start : (ns.head?.map Node.start).getD p = p := by
    cases ns with
    | nil => rfl
    | cons => exact inside.uncons.1
  have inside' : Tile (p.after k.opening.toList) ns q := by
    rw [opening]
    exact inside
  rw [Node.spanning, start, inside.getLast?_stop]
  exact inside'.unclosed closing

end Tile

/-! ### Texts of tiled nodes -/

theorem texts_cons (n : Node) (ns : List Node) :
  (String.join (texts (n :: ns))).toList = n.written.toList ++ (String.join (texts ns)).toList
  := by
  rw [texts, String.join_cons, String.toList_append]

mutual

/-- A node ends behind its text. -/
theorem Tiled.stop {n : Node} (tiled : n.Tiled) :
  n.stop = n.start.after n.written.toList
  := by
  cases n with
  | leaf t =>
    rw [Tiled] at tiled
    rw [written, Token.toList_written]
    exact tiled
  | branch k ns p q =>
    rw [Tiled] at tiled
    obtain ⟨r, inside, rfl⟩ := tiled
    rw [written, String.toList_append, String.toList_append, Position.after_append,
      Position.after_append, start, ← inside.stop]
    rfl

/-- Nodes that follow each other end behind their texts. -/
theorem Tile.stop {p q : Position} {ns : List Node} (tile : Tile p ns q) :
  q = p.after (String.join (texts ns)).toList
  := by
  cases ns with
  | nil =>
    rw [Tile] at tile
    rw [← tile, texts, String.join_nil]
    rfl
  | cons n ns =>
    obtain ⟨rfl, tiled, others⟩ := tile.uncons
    rw [texts_cons, Position.after_append, ← tiled.stop]
    exact others.stop

end

mutual

/-- With a node all of its descendants are tiled. -/
theorem Tiled.preorder {n m : Node} (tiled : n.Tiled) (mem : m ∈ n.preorder) :
  m.Tiled
  := by
  cases n with
  | leaf t =>
    rw [Node.preorder] at mem
    exact List.mem_singleton.mp mem ▸ tiled
  | branch k ns p q =>
    rw [Node.preorder] at mem
    obtain rfl | mem := List.mem_cons.mp mem
    · exact tiled
    · rw [Tiled] at tiled
      obtain ⟨_, inside, _⟩ := tiled
      exact inside.preorder mem

theorem Tile.preorder {p q : Position} {ns : List Node} {m : Node} (tile : Tile p ns q)
    (mem : m ∈ preorderList ns) :
  m.Tiled
  := by
  cases ns with
  | nil => cases mem
  | cons n ns =>
    obtain ⟨_, tiled, others⟩ := tile.uncons
    rw [preorderList] at mem
    obtain mem | mem := List.mem_append.mp mem
    · exact tiled.preorder mem
    · exact others.preorder mem

end

/-! ### Places in a tree -/

/-- The node stands in the text `s`, behind some beginning of it and with its own text there. -/
def StandsIn (s : List Char) (n : Node) : Prop :=
  ∃ before, n.start = Position.origin.after before ∧ before ++ n.written.toList <+: s

mutual

/-- The descendants of a tiled node stand in the text that the node stands in. -/
theorem Tiled.standsIn {s : List Char} {n m : Node} (tiled : n.Tiled) (stands : n.StandsIn s)
    (mem : m ∈ n.preorder) :
  m.StandsIn s
  := by
  cases n with
  | leaf t =>
    rw [Node.preorder] at mem
    exact List.mem_singleton.mp mem ▸ stands
  | branch k ns p q =>
    rw [Node.preorder] at mem
    obtain rfl | below := List.mem_cons.mp mem
    · exact stands
    · rw [Tiled] at tiled
      obtain ⟨_, inside, _⟩ := tiled
      obtain ⟨before, rfl, within⟩ := stands
      rw [written, String.toList_append, String.toList_append, ← List.append_assoc,
        ← List.append_assoc] at within
      rw [← Position.after_append] at inside
      exact inside.standsIn ((List.prefix_append _ _).trans within) below

theorem Tile.standsIn {s before : List Char} {q : Position} {ns : List Node} {m : Node}
    (tile : Tile (Position.origin.after before) ns q)
    (within : before ++ (String.join (texts ns)).toList <+: s) (mem : m ∈ preorderList ns) :
  m.StandsIn s
  := by
  cases ns with
  | nil => cases mem
  | cons n ns =>
    obtain ⟨place, tiled, others⟩ := tile.uncons
    rw [texts_cons, ← List.append_assoc] at within
    rw [preorderList] at mem
    obtain mem | mem := List.mem_append.mp mem
    · exact tiled.standsIn ⟨before, place, (List.prefix_append _ _).trans within⟩ mem
    · rw [tiled.stop, place, ← Position.after_append] at others
      exact others.standsIn within mem

end

end Node

/-! ### Tokens and nodes -/

section Laid

variable {p q : Position} {t o : Token} {ts us os : List Token} {delimiter : String}

theorem Laid.behind (laid : Laid p (ts ++ us) q) :
  Laid (p.after (spelling ts)) us q
  := by
  induction ts generalizing p with
  | nil => exact laid
  | cons t ts ih =>
    obtain ⟨_, stop, others⟩ := laid
    rw [stop] at others
    rw [spelling_cons, Position.after_append]
    exact ih others

theorem Marks.spelling (marks : Marks ts delimiter) (proper : ∀ t ∈ ts, t.Proper) :
  spelling ts = delimiter.toList
  := by
  rw [← Node.written_marks, ← marks.lexemes proper, List.flatMap_map]
  rfl

/-- Tokens that lie behind a delimiter lie where it ends. -/
theorem Laid.opened (laid : Laid p (o :: os ++ ts) q) (opening : Marks (o :: os) delimiter)
    (proper : ∀ t ∈ o :: os, t.Proper) :
  o.start = p ∧ Laid (p.after delimiter.toList) ts q
  := by
  refine ⟨laid.1, ?_⟩
  rw [← opening.spelling proper]
  exact laid.behind

end Laid

/-- Wherever the tokens `ts` lie, with the nodes `given` in front of them, the nodes `ns` extend
from the beginning of these up to the tokens `us`. -/
def Covers (given ns : List Node) (ts us : List Token) : Prop :=
  ∀ p p' q, Node.Tile p given p' → Laid p' ts q → ∃ r, Node.Tile p ns r ∧ Laid r us q

namespace Covers

variable {given ms ns : List Node} {m : Node} {t : Token} {ts us vs : List Token} {k : Kind}

theorem nil (ts : List Token) :
  Covers [] [] ts ts
  := by
  intro p p' q before laid
  exact ⟨p', before, laid⟩

theorem of_laid (covers : ∀ p q, Laid p ts q → ∃ r, Node.Tile p ns r ∧ Laid r us q) :
  Covers [] ns ts us
  := by
  intro p p' q before laid
  rw [Node.Tile] at before
  exact covers p q (before ▸ laid)

theorem at_place (covers : Covers [] ns ts us) {p q : Position} (laid : Laid p ts q) :
  ∃ r, Node.Tile p ns r ∧ Laid r us q
  := covers p p q (.nil p) laid

theorem trans (first : Covers given ms ts us) (second : Covers ms ns us vs) :
  Covers given ns ts vs
  := by
  intro p p' q before laid
  obtain ⟨r, tile, laid⟩ := first p p' q before laid
  exact second p r q tile laid

theorem append (first : Covers given ms ts us) (second : Covers [] ns us vs) :
  Covers given (ms ++ ns) ts vs
  := by
  intro p p' q before laid
  obtain ⟨r, tile, laid⟩ := first p p' q before laid
  obtain ⟨r', tile', laid⟩ := second.at_place laid
  exact ⟨r', tile.append tile', laid⟩

theorem leaf (t : Token) (ts : List Token) :
  Covers [] [.leaf t] (t :: ts) ts
  := by
  apply of_laid
  rintro _ q ⟨rfl, stop, laid⟩
  have tiled : (Node.leaf t).Tiled := by rwa [Node.Tiled]
  exact ⟨t.stop, .cons tiled (.nil _), laid⟩

theorem leaves (bs ts : List Token) :
  Covers [] (bs.map .leaf) (bs ++ ts) ts
  := by
  induction bs with
  | nil => exact nil ts
  | cons b bs ih => exact (leaf b _).append ih

/-- A node without delimiters covers the tokens that its children cover. -/
theorem spanning (inside : Covers [] ns (t :: ts) us) (k : Kind) (opening : k.opening = "")
    (closing : k.closing = "") :
  Covers [] [.spanning k ns t.start] (t :: ts) us
  := by
  apply of_laid
  intro p q laid
  obtain ⟨r, tile, laid'⟩ := inside.at_place laid
  rw [laid.1]
  exact ⟨r, tile.spanning k opening closing, laid'⟩

/-- The same for a node that follows a token and stands behind it even without children. -/
theorem behind (inside : Covers [] ns ts us) (t : Token) (k : Kind) (opening : k.opening = "")
    (closing : k.closing = "") :
  Covers [] [.leaf t, .spanning k ns t.stop] (t :: ts) us
  := by
  apply of_laid
  rintro _ q ⟨rfl, stop, laid⟩
  have tiled : (Node.leaf t).Tiled := by rwa [Node.Tiled]
  obtain ⟨r, tile, laid⟩ := inside.at_place laid
  exact ⟨r, .cons tiled (tile.spanning k opening closing), laid⟩

end Covers

theorem Terminator.covers {e : Ending} {marks : List Char} {ts us : List Token} {ns : List Node}
    (terminator : Terminator e marks ts ns us) :
  Covers [] ns ts us
  := by
  cases terminator with
  | mark => exact .leaf _ _
  | none => exact .nil _

/-- The nodes that a phrase makes up extend over the tokens that it takes. -/
theorem Derives.covers {e : Ending} {n : Nat} {p : Phrase} {ts us : List Token} {ns : List Node}
    (derives : Derives e n p ts ns us) (proper : ∀ t ∈ ts, t.Proper) :
  Covers p.given ns ts us
  := by
  have behind {t : Token} {ts : List Token} (proper : ∀ u ∈ t :: ts, u.Proper) :
      ∀ u ∈ ts, u.Proper := fun u mem => proper u (List.mem_cons_of_mem t mem)
  induction derives with
  | @group n g o os ts ns c us opening inside closing ih =>
    have proper' := fun t mem => proper t (List.mem_append_right _ mem)
    apply Covers.of_laid
    intro p q laid
    obtain ⟨start, laid⟩ := laid.opened opening fun t mem => proper t (List.mem_append_left _ mem)
    obtain ⟨r, tile, _, stop, laid⟩ := (ih proper').at_place laid
    have last := (inside.forall_rest proper' _ List.mem_cons_self).lexeme closing
    have text : c.lexeme.written = g.kind.closing.toList := by
      rw [last, g.closing_kind]
      simp [Lexeme.written, Kind.opening, Kind.closing]
    rw [text] at stop
    rw [start, stop]
    rw [stop] at laid
    exact ⟨_, tile.branch, laid⟩
  | callNone =>
    intro p p' q before laid
    exact ⟨p', before, laid⟩
  | callArguments _ ih =>
    intro p p' q before laid
    obtain ⟨r, tile, laid⟩ := (ih proper).at_place laid
    obtain ⟨start, _⟩ := before.single
    rw [start]
    exact ⟨r, (before.append tile).spanning .functionCall rfl rfl, laid⟩
  | segmentsEnd | atomsStop | atomsEnd | headNone | sequenceEnd | sequenceCloser =>
    exact Covers.nil _
  | segmentToken | targetName | atomToken | statementToken => exact Covers.leaf _ _
  | segmentInterpolation _ ih | targetInterpolation _ ih | atomGroup _ _ ih
  | looseBlock _ _ _ _ ih =>
    exact ih proper
  | segmentsCons first _ ih ih' | atomsCons _ first _ ih ih' | sequenceCons _ first _ ih ih'
  | loose _ _ first _ _ ih ih' =>
    exact (ih proper).append (ih' (first.forall_rest proper))
  | atomName _ _ ih => exact (Covers.leaf _ _).trans (ih (behind proper))
  | atomInterpolation first _ ih ih' => exact (ih proper).trans (ih' (first.forall_rest proper))
  | @atomCompound _ _ kind t _ _ _ which sigil _ _ _ ih =>
    have bare : kind.closing = "" := by obtain rfl | rfl := which <;> rfl
    have text := sigil.spelling fun u mem =>
      proper u (List.mem_singleton.mp mem ▸ List.mem_cons_self)
    apply Covers.of_laid
    rintro p q ⟨start, stop, laid⟩
    obtain ⟨r, tile, laid⟩ := (ih (behind proper)).at_place laid
    rw [start, tile.getLast?_stop]
    rw [stop, ← List.append_nil t.lexeme.written, ← spelling_nil, ← spelling_cons, text] at tile
    exact ⟨r, tile.unclosed bare, laid⟩
  | @atomPseudo _ kind _ _ _ _ _ _ _ which colons _ target _ ih ih' =>
    have proper' := fun t mem => proper t (List.mem_append_right _ mem)
    have bare : kind.closing = "" := by obtain rfl | rfl := which <;> rfl
    have name := (ih proper').trans (ih' (target.forall_rest proper'))
    apply Covers.of_laid
    intro p q laid
    obtain ⟨start, laid⟩ := laid.opened colons fun t mem => proper t (List.mem_append_left _ mem)
    obtain ⟨r, tile, laid⟩ := name.at_place laid
    rw [start, tile.single.2.2]
    exact ⟨r, tile.unclosed bare, laid⟩
  | headCall _ _ _ ih =>
    have arguments := ih fun t mem => proper t (by simp [mem])
    exact (Covers.leaves _ _).append ((Covers.leaf _ _).append arguments)
  | atRuleBlock _ head prelude _ ih ih' ih'' =>
    have proper' := head.forall_rest (behind proper)
    have inside := ((ih (behind proper)).append (ih' proper')).append
      (ih'' (prelude.forall_rest proper'))
    exact ((Covers.leaf _ _).append inside).spanning .atRule rfl rfl
  | atRule _ head prelude _ final ih ih' =>
    have proper' := head.forall_rest (behind proper)
    have inside := ((ih (behind proper)).append (ih' proper')).append final.covers
    exact ((Covers.leaf _ _).append inside).spanning .atRule rfl rfl
  | rule _ _ selector _ ih ih' =>
    have selector' := (ih proper).spanning .selector rfl rfl
    exact (selector'.append (ih' (selector.forall_rest proper))).spanning .rule rfl rfl
  | declarationBlock _ _ property value _ final ih ih' ih'' =>
    have proper' := behind (property.forall_rest proper)
    have parts := (ih' proper').append (ih'' (value.forall_rest proper'))
    have property' := (ih proper).spanning .property rfl rfl
    exact ((property'.append (parts.behind _ .value rfl rfl)).append final.covers).spanning
      .declaration rfl rfl
  | declaration _ _ property value _ final ih ih' =>
    have parts := ih' (behind (property.forall_rest proper))
    have property' := (ih proper).spanning .property rfl rfl
    exact ((property'.append (parts.behind _ .value rfl rfl)).append final.covers).spanning
      .declaration rfl rfl

/-! ### The places of a text -/

/-- A node stands at places of the text `source`, and so do its children inside of it: it extends
over its own text, and they follow each other between its delimiters.  Without children the
delimiters follow each other. -/
structure Node.Placed (source : String) (n : Node) : Prop where
  start : n.start.IsPlace source
  stop : n.stop.IsPlace source
  text : n.stop = n.start.after n.written.toList
  first : ∀ c ∈ n.children.head?, c.start = n.start.after n.kind.opening.toList
  next : n.children.IsChain fun c d => c.stop = d.start
  last : ∀ c ∈ n.children.getLast?, n.stop = c.stop.after n.kind.closing.toList
  empty : ∀ k p q, n = .branch k [] p q → q = (p.after k.opening.toList).after k.closing.toList

namespace Node

/-- Nodes without a gap follow each other. -/
theorem Tile.isChain {p q : Position} {ns : List Node} (tile : Tile p ns q) :
  ns.IsChain fun c d => c.stop = d.start
  := by
  induction ns generalizing p with
  | nil => exact .nil
  | cons n ns ih =>
    obtain ⟨_, _, others⟩ := tile.uncons
    cases ns with
    | nil => exact .singleton n
    | cons => exact .cons_cons others.uncons.1.symm (ih others)

/-- A tiled node in a text stands at places of it. -/
theorem Tiled.placed {source : String} {n : Node} (tiled : n.Tiled)
    (stands : n.StandsIn source.toList) :
  n.Placed source
  := by
  obtain ⟨before, place, within⟩ := stands
  have text := tiled.stop
  have start : n.start.IsPlace source := by
    rw [place]
    exact Position.isPlace_of_prefix ((List.prefix_append _ _).trans within)
  have stop : n.stop.IsPlace source := by
    rw [text, place, ← Position.after_append]
    exact Position.isPlace_of_prefix within
  cases n with
  | leaf => exact ⟨start, stop, text, nofun, .nil, nofun, nofun⟩
  | branch k ns p q =>
    rw [Tiled] at tiled
    obtain ⟨r, inside, rfl⟩ := tiled
    refine ⟨start, stop, text, ?_, inside.isChain, ?_, ?_⟩
    · intro c mem
      obtain ⟨ms, rfl⟩ := List.head?_eq_some_iff.mp mem
      exact inside.uncons.1
    · intro c mem
      have last := inside.getLast?_stop
      rw [show ns.getLast? = some c from mem] at last
      rw [← last]
      rfl
    · rintro k p q ⟨⟩
      rw [Tile] at inside
      rw [inside]

end Node

theorem Node.preorderList_map_leaf (ts : List Token) :
  preorderList (ts.map leaf) = ts.map leaf
  := by
  induction ts with
  | nil => rfl
  | cons t ts ih => simp [preorderList, preorder, ih]

/-- The text of tokens as leaves is the text of the tokens. -/
theorem toList_texts_leaves (ts : List Token) :
  (String.join (Node.texts (ts.map .leaf))).toList = spelling ts
  := by
  rw [Node.toList_texts, Node.flattenList_map_leaf, List.flatMap_map, spelling]

/-- The tokens of a text lie side by side, from its beginning up to its end. -/
theorem laid_of_tokenize {source : String} {ts : List Token} (tokens : tokenize source = .ok ts) :
  Laid .origin ts (Position.origin.after source.toList) ∧ spelling ts = source.toList ∧
    ∀ t ∈ ts, t.Proper
  := by
  obtain ⟨finished, rfl⟩ := tokenize_eq_ok_iff.mp tokens
  obtain ⟨passes, rest⟩ := Cursor.passes_readAll _ finished
  have text := passes.text
  rw [rest, List.append_nil] at text
  have laid := passes.laid
  rw [passes.place, ← text] at laid
  exact ⟨laid, text.symm, passes.proper⟩

/-- Tokens of a text lie side by side at places of it, as leaves do. -/
theorem places_of_tokenize {source : String} {ts : List Token} (tokens : tokenize source = .ok ts) :
  (ts.IsChain fun t u => t.stop = u.start) ∧
    ∀ t ∈ ts, t.start.IsPlace source ∧ t.stop.IsPlace source
  := by
  obtain ⟨laid, text, _⟩ := laid_of_tokenize tokens
  rw [← List.append_nil ts] at laid
  obtain ⟨_, tile, _⟩ := (Covers.leaves ts []).at_place laid
  refine ⟨(List.isChain_map _).mp tile.isChain, ?_⟩
  intro t mem
  have within : [] ++ (String.join (Node.texts (ts.map .leaf))).toList <+: source.toList := by
    rw [toList_texts_leaves, ← text]
    exact List.prefix_refl _
  have mem' : Node.leaf t ∈ Node.preorderList (ts.map .leaf) := by
    rw [Node.preorderList_map_leaf]
    exact List.mem_map_of_mem mem
  have tile : Node.Tile (Position.origin.after []) (ts.map .leaf) _ := tile
  have placed := (tile.preorder mem').placed (tile.standsIn within mem')
  exact ⟨placed.start, placed.stop⟩

/-- A stylesheet extends over its text, and so do the descendants over theirs. -/
theorem places_of_stylesheet {source : String} {n : Node} (parsed : parse source = .ok n) :
  n.start = .origin ∧ n.stop = Position.origin.after source.toList ∧
    ∀ m ∈ n.preorder, m.Placed source
  := by
  obtain ⟨_, finished⟩ := TokenStream.finished_of_stylesheet parsed
  have tokens : tokenize source = .ok (Lexer.ofString source).stream.tokens :=
    tokenize_eq_ok_iff.mpr ⟨Lexer.failure_of_stream finished, rfl⟩
  obtain ⟨laid, _, proper⟩ := laid_of_tokenize tokens
  obtain ⟨ns, rfl, derives⟩ := TokenStream.derives_of_stylesheet parsed
  obtain ⟨_, inside, rfl⟩ := (derives.covers proper).at_place laid
  obtain ⟨start, tiled, stop⟩ := (inside.spanning .stylesheet rfl rfl).single
  have text := (Lexer.stands_ofCursor (.ofString source)).written_parse parsed
  refine ⟨start, stop, ?_⟩
  intro m mem
  have stands : Node.StandsIn source.toList (.spanning .stylesheet ns .origin) :=
    ⟨[], start, by rw [text]; exact List.prefix_refl _⟩
  exact (tiled.preorder mem).placed (tiled.standsIn stands mem)

/-- The tokens of a text lie side by side at places of it.  So do the nodes of its tree, from the
beginning of the text up to its end: each extends over its own text and its children lie side by
side between its delimiters. -/
theorem places_of_parse (source : String) :
  (∀ ts, tokenize source = .ok ts →
    (ts.IsChain fun t u => t.stop = u.start) ∧
      ∀ t ∈ ts, t.start.IsPlace source ∧ t.stop.IsPlace source) ∧
    ∀ n, parse source = .ok n →
      n.start = .origin ∧ n.stop = Position.origin.after source.toList ∧
        ∀ m ∈ n.preorder, m.Placed source
  := ⟨fun _ => places_of_tokenize, fun _ => places_of_stylesheet⟩

/-- A text with line feeds inside and between tokens, characters of two and of three bytes, an empty
group, an empty property and an empty value. -/
theorem places_of_parse_lines :
  ∃ ts n, tokenize "é(\n:中:a)[]\x7b'\n'c:\x7d" = .ok ts ∧
    parse "é(\n:中:a)[]\x7b'\n'c:\x7d" = .ok n ∧ n.stop = ⟨17, 3, 4, 20⟩ ∧
    (∀ t ∈ ts, t.start.IsPlace "é(\n:中:a)[]\x7b'\n'c:\x7d") ∧
    ∀ m ∈ n.preorder, m.Placed "é(\n:中:a)[]\x7b'\n'c:\x7d"
  := by
  have tokens : (tokenize "é(\n:中:a)[]\x7b'\n'c:\x7d").isOk = true := by decide +kernel
  have parses : (parse "é(\n:中:a)[]\x7b'\n'c:\x7d").isOk = true := by decide +kernel
  obtain ⟨tiles, places⟩ := places_of_parse "é(\n:中:a)[]\x7b'\n'c:\x7d"
  cases tokenized : tokenize "é(\n:中:a)[]\x7b'\n'c:\x7d" with
  | error => rw [tokenized] at tokens; cases tokens
  | ok ts =>
    cases parsed : parse "é(\n:中:a)[]\x7b'\n'c:\x7d" with
    | error => rw [parsed] at parses; cases parses
    | ok n =>
      obtain ⟨_, stop, placed⟩ := places n parsed
      refine ⟨ts, n, rfl, rfl, ?_, fun t mem => ((tiles ts tokenized).2 t mem).1, placed⟩
      rw [stop]
      decide +kernel

end LosslessScss
