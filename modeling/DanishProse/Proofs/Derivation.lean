/-
  The grammar of documents, as derivations of lists of tokens.

  * Each form of the grammar is a relation between what is read and the tokens
    that it derives, without those before and behind: `Part.Derives`,
    `Clause.Derives`, `ListDerives`, `Sentence.Derives`, `BlockDerives`,
    `Definition.Derives` and `Document.Derives`;
  * keywords are told by the text of a token in any letter case, and taken as soon
    as they can be: a pattern word is not `tilbagegiver`, a sentence that begins
    with one of the words of `openings` is of the form of that word, `og` after a
    comma belongs to the comma, and `ellers` after a block to the `hvis` before it;
  * `lax` adds two forms that the grammar does not have: the two articles `en et`
    in a row, and a lone `offentlig` where a definition could begin.
-/
import Mathlib.Tactic.Common
import DanishProse.Prose.Grammar

namespace DanishProse

/-! ## Clauses -/

/-- The place where tokens begin. -/
def firstLocation (ts : List Token) : Location :=
  (nextToken .start ts).location

mutual

/-- A part: `WORD | LITERAL | ( list )`. -/
inductive Part.Derives : Part → List Token → Prop
  | word {t : Token} : t.kind = .word → Part.Derives (.word t.text) [t]
  | literal {t : Token} {v : Literal} : t.kind = .literal v → Part.Derives (.literal v) [t]
  | list {t u : Token} {cs : List Clause} {ts : List Token} :
    t.kind = .parenOpen → ListDerives cs ts → u.kind = .parenClose →
      Part.Derives (.list cs) (t :: (ts ++ [u]))

/-- Parts in a row: `part*`. -/
inductive PartsDerive : List Part → List Token → Prop
  | nil : PartsDerive [] []
  | cons {p : Part} {ps : List Part} {ts us : List Token} :
    p.Derives ts → PartsDerive ps us → PartsDerive (p :: ps) (ts ++ us)

/-- A clause: `part+`. -/
inductive Clause.Derives : Clause → List Token → Prop
  | mk {ps : List Part} {ts : List Token} :
    PartsDerive ps ts → ps ≠ [] → Clause.Derives (.mk (firstLocation ts) ps) ts

/-- The clauses after the first one: `(, [og] clause)*`. -/
inductive OthersDerive : List Clause → List Token → Prop
  | nil : OthersDerive [] []
  | plain {t : Token} {c : Clause} {cs : List Clause} {ts us : List Token} :
    t.kind = .comma → nextReads "og" ts = false → c.Derives ts → OthersDerive cs us →
      OthersDerive (c :: cs) (t :: (ts ++ us))
  | joined {t u : Token} {c : Clause} {cs : List Clause} {ts us : List Token} :
    t.kind = .comma → u.reads "og" → c.Derives ts → OthersDerive cs us →
      OthersDerive (c :: cs) (t :: u :: (ts ++ us))

/-- A list: `clause (, [og] clause)*`. -/
inductive ListDerives : List Clause → List Token → Prop
  | mk {c : Clause} {cs : List Clause} {ts us : List Token} :
    c.Derives ts → OthersDerive cs us → ListDerives (c :: cs) (ts ++ us)

end

/-! ## Sentences -/

/-- A list up to its full stop, `list .`, with its pronouns resolved. -/
inductive StoppedDerives : List Clause → List Token → Prop
  | mk {cs : List Clause} {ts : List Token} {dot : Token} :
    ListDerives cs ts → dot.kind = .dot → StoppedDerives (resolveClauses cs) (ts ++ [dot])

/-- An article: `[en | et]`. -/
inductive ArticleDerives (lax : Bool) : List Token → Prop
  | none : ArticleDerives lax []
  | en {t : Token} : t.reads "en" → ArticleDerives lax [t]
  | et {t : Token} : t.reads "et" → ArticleDerives lax [t]
  | both {t u : Token} : lax = true → t.reads "en" → u.reads "et" → ArticleDerives lax [t, u]

/-- The words that say of which form a sentence is, and the one that ends a block. -/
def openings : List String :=
  ["farvel", "lad", "hvis", "imens", "imedens", "tilbagegiv"]

/-- A sentence that may take an `ellers` after it. -/
def Sentence.isWhen : Sentence → Bool
  | .when _ _ => true
  | _ => false

mutual

/-- A sentence: `lad WORD være [en | et] WORD .`, `hvis list . block`,
    `hvis list . block ellers . block`, `(imens | imedens) list . block`,
    `tilbagegiv list .` or `list .`. -/
inductive Sentence.Derives (lax : Bool) : Sentence → List Token → Prop
  | declare {lad name be typeName dot : Token} {article : List Token} :
    lad.reads "lad" → name.kind = .word → be.reads "være" → ArticleDerives lax article →
      typeName.kind = .word → dot.kind = .dot →
      Sentence.Derives lax (.declare name.text typeName.text name.location)
        (lad :: name :: be :: (article ++ [typeName, dot]))
  | when {t : Token} {cs : List Clause} {body : List Sentence} {ts us : List Token} :
    t.reads "hvis" → StoppedDerives cs ts → BlockDerives lax body us →
      Sentence.Derives lax (.when cs body) (t :: (ts ++ us))
  | whenElse {t u dot : Token} {cs : List Clause} {body otherwise : List Sentence}
      {ts us vs : List Token} :
    t.reads "hvis" → StoppedDerives cs ts → BlockDerives lax body us →
      u.reads "ellers" → dot.kind = .dot → BlockDerives lax otherwise vs →
      Sentence.Derives lax (.whenElse cs body otherwise) (t :: (ts ++ us ++ u :: dot :: vs))
  | loop {t : Token} {cs : List Clause} {body : List Sentence} {ts us : List Token} :
    t.reads "imens" ∨ t.reads "imedens" → StoppedDerives cs ts → BlockDerives lax body us →
      Sentence.Derives lax (.loop cs body) (t :: (ts ++ us))
  | giveBack {t : Token} {cs : List Clause} {ts : List Token} :
    t.reads "tilbagegiv" → StoppedDerives cs ts → Sentence.Derives lax (.giveBack cs) (t :: ts)
  | express {cs : List Clause} {ts : List Token} :
    (∀ keyword ∈ openings, nextReads keyword ts = false) → StoppedDerives cs ts →
      Sentence.Derives lax (.express cs) ts

/-- Sentences in a row: `sentence*`. -/
inductive SentencesDerive (lax : Bool) : List Sentence → List Token → Prop
  | nil : SentencesDerive lax [] []
  | cons {s : Sentence} {ss : List Sentence} {ts us : List Token} :
    s.Derives lax ts → SentencesDerive lax ss us → (s.isWhen → nextReads "ellers" us = false) →
      SentencesDerive lax (s :: ss) (ts ++ us)

/-- A block: `goddag . sentence* farvel .`. -/
inductive BlockDerives (lax : Bool) : List Sentence → List Token → Prop
  | mk {t dot u dot' : Token} {ss : List Sentence} {ts : List Token} :
    t.reads "goddag" → dot.kind = .dot → SentencesDerive lax ss ts → u.reads "farvel" →
      dot'.kind = .dot → BlockDerives lax ss (t :: dot :: (ts ++ [u, dot']))

end

/-! ## Definitions -/

/-- A position of a pattern: `WORD | ( WORD som WORD )`. -/
inductive PatternPart.Derives : PatternPart → List Token → Prop
  | word {t : Token} :
    t.kind = .word → t.reads "tilbagegiver" = false → PatternPart.Derives (.word t.text) [t]
  | parameter {t name som typeName u : Token} :
    t.kind = .parenOpen → name.kind = .word → som.reads "som" → typeName.kind = .word →
      u.kind = .parenClose →
      PatternPart.Derives (.parameter name.text typeName.text) [t, name, som, typeName, u]

/-- A pattern: its positions in a row. -/
inductive PatternDerives : List PatternPart → List Token → Prop
  | nil : PatternDerives [] []
  | cons {p : PatternPart} {ps : List PatternPart} {ts us : List Token} :
    p.Derives ts → PatternDerives ps us → PatternDerives (p :: ps) (ts ++ us)

/-- A definition: `offentlig funktion pattern tilbagegiver WORD . block`. -/
inductive Definition.Derives (lax : Bool) : Definition → List Token → Prop
  | mk {t u give name dot : Token} {ps : List PatternPart} {body : List Sentence}
      {ts us : List Token} :
    t.reads "offentlig" → u.reads "funktion" → PatternDerives ps ts →
      give.reads "tilbagegiver" → name.kind = .word → dot.kind = .dot → BlockDerives lax body us →
      Definition.Derives lax ⟨⟨ps⟩, name.text, body, firstLocation (ts ++ [give])⟩
        (t :: u :: (ts ++ give :: name :: dot :: us))

/-- Definitions in a row: `definition*`. -/
inductive DefinitionsDerive (lax : Bool) : List Definition → List Token → Prop
  | nil : DefinitionsDerive lax [] []
  | cons {d : Definition} {ds : List Definition} {ts us : List Token} :
    d.Derives lax ts → DefinitionsDerive lax ds us → DefinitionsDerive lax (d :: ds) (ts ++ us)
  | skip {t : Token} {ds : List Definition} {us : List Token} :
    lax = true → t.reads "offentlig" → nextReads "funktion" us = false →
      DefinitionsDerive lax ds us → DefinitionsDerive lax ds (t :: us)

/-- The tokens of a whole document. -/
def Document.Derives (lax : Bool) (d : Document) (ts : List Token) : Prop :=
  DefinitionsDerive lax d.definitions ts

end DanishProse
