import TurtleCode.Json.Token

/-!
# Drafts: JSON text read as far as it goes

A text that is no JSON is JSON up to some place.  A draft is the value that the text describes up to
that place, with what is due there and what stands there instead.  This lets a reader who goes
through a draft from left to right meet the faults of a text in the order in which they stand there,
whether the text is flawed or only does not say what the reader wants.  What a flaw is called
depends on the reader: one who wants a value, one who wants a choice, or one who passes a value
over.

* `Draft.ofTokens` builds the draft of a text with a stack of the containers that are open.
* `Gap.flaw` and `Ending.flaw?` name a flaw for a reader who wants the value, and `Gap.passedFlaw`
  and `Ending.passedFlaw?` for one who passes it over.
* `Draft.flaw?` is the flaw in a draft that nobody reads.
-/

namespace TurtleCode.Json

/-- What is due where a container breaks off.  An array or object that is still empty may end
instead of going on; after a comma it may not. -/
inductive Due
  | firstItem
  | nextItem
  | itemComma
  | firstKey
  | nextKey
  | memberComma
deriving DecidableEq

/-- How a container ends: with its bracket, or with something due and another token there, or no
token at all. -/
inductive Ending
  | closed
  | broken (due : Due) (next : Option Token)
deriving DecidableEq

/-- Why there is no value: the colon before it is missing, or another token stands there, or the
text ends. -/
inductive Gap
  | noColon (ended : Bool)
  | noValue (next : Option Token)
deriving DecidableEq

def keyFlaw : Token → Flaw
  | .brokenString pieces stop => brokenFlaw pieces stop
  | _ => .keyExpected

def passedKeyFlaw : Token → Flaw
  -- what is passed over is not decoded, so only the place where it breaks off counts
  | .brokenString _ stop => stop.flaw
  | _ => .keyExpected

namespace Ending

def flaw? : Ending → Option Flaw
  | .closed => none
  | .broken .firstItem _ => some .endInList
  | .broken .nextItem none => some .endInValue
  | .broken .nextItem (some _) => some .trailingComma
  | .broken .itemComma none => some .endInList
  | .broken .itemComma (some _) => some .listCommaExpected
  | .broken .firstKey none => some .endInObject
  | .broken .firstKey (some token) => some (keyFlaw token)
  | .broken .nextKey none => some .endInValue
  | .broken .nextKey (some .closeObject) => some .trailingComma
  | .broken .nextKey (some token) => some (keyFlaw token)
  | .broken .memberComma none => some .endInObject
  | .broken .memberComma (some _) => some .objectCommaExpected

def passedFlaw? : Ending → Option Flaw
  | .broken .nextItem (some _) => some .valueExpected
  | .broken .firstKey (some token) => some (passedKeyFlaw token)
  | .broken .nextKey none => some .endInObject
  | .broken .nextKey (some token) => some (passedKeyFlaw token)
  | ending => ending.flaw?

end Ending

namespace Gap

def flaw : Gap → Flaw
  | .noColon ended => if ended then .endInObject else .colonExpected
  | .noValue none => .endInValue
  | .noValue (some (.brokenWord _ ended)) => if ended then .endInValue else .wordExpected
  | .noValue (some (.brokenNumber ended)) => if ended then .endInValue else .badNumber
  | .noValue (some (.brokenString pieces stop)) => brokenFlaw pieces stop
  | .noValue (some _) => .valueExpected

/-- The flaw of a gap where a choice is wanted, which is never a word or a number. -/
def choiceFlaw : Gap → Flaw
  | .noValue (some (.brokenWord ..)) | .noValue (some (.brokenNumber _)) => .valueExpected
  | gap => gap.flaw

def passedFlaw : Gap → Flaw
  | .noValue (some (.brokenNumber _)) => .badNumber
  | .noValue (some (.brokenString _ stop)) => stop.flaw
  | gap => gap.flaw

end Gap

/-- A value as far as the text describes it.  A `cut` stands where a value is due. -/
inductive Draft
  | null
  | bool (b : Bool)
  | number (n : Number)
  | string (pieces : List Piece)
  | array (items : List Draft) (ending : Ending)
  | object (members : List (List Piece × Draft)) (ending : Ending)
  | cut (gap : Gap)

/-- The draft of a text, and whether something follows the value. -/
structure Document where
  root : Draft
  trailing : Bool

namespace Draft

mutual

def flaw? : Draft → Option Flaw
  | .array items ending => itemsFlaw? ending items
  | .object members ending => membersFlaw? ending members
  | .cut gap => some gap.passedFlaw
  | _ => none

def itemsFlaw? (ending : Ending) : List Draft → Option Flaw
  | [] => ending.passedFlaw?
  | item :: rest =>
    match flaw? item with
    | some flaw => some flaw
    | none => itemsFlaw? ending rest

def membersFlaw? (ending : Ending) : List (List Piece × Draft) → Option Flaw
  | [] => ending.passedFlaw?
  | (_, value) :: rest =>
    match flaw? value with
    | some flaw => some flaw
    | none => membersFlaw? ending rest

end

/-- A container that waits for one of its values: what it holds already, in reverse, and for an
object the key of the value. -/
inductive Frame
  | array (items : List Draft)
  | object (members : List (List Piece × Draft)) (key : List Piece)

/-- What is due next.  Lists are in reverse, and `comma` says that a comma came just before. -/
inductive Slot
  | root
  | item (items : List Draft) (comma : Bool)
  | afterItem (items : List Draft)
  | key (members : List (List Piece × Draft)) (comma : Bool)
  | colon (members : List (List Piece × Draft)) (key : List Piece)
  | value (members : List (List Piece × Draft)) (key : List Piece)
  | afterMember (members : List (List Piece × Draft))

inductive Progress
  | within (frames : List Frame) (slot : Slot)
  | done (root : Draft)

def deliver (value : Draft) : List Frame → Progress
  | [] => .done value
  | .array items :: frames => .within frames (.afterItem (value :: items))
  | .object members key :: frames => .within frames (.afterMember ((key, value) :: members))

def beginValue (frames : List Frame) : Token → Option Progress
  | .null => some (deliver .null frames)
  | .bool b => some (deliver (.bool b) frames)
  | .number n => some (deliver (.number n) frames)
  | .string pieces => some (deliver (.string pieces) frames)
  | .openArray => some (.within frames (.item [] false))
  | .openObject => some (.within frames (.key [] false))
  | _ => none

/-- What a token does where something is due; none if it does not belong there. -/
def move (frames : List Frame) (slot : Slot) (token : Token) : Option Progress :=
  match slot, token with
  | .root, token => beginValue frames token
  | .item items false, .closeArray => some (deliver (.array items.reverse .closed) frames)
  | .item items _, token => beginValue (.array items :: frames) token
  | .afterItem items, .comma => some (.within frames (.item items true))
  | .afterItem items, .closeArray => some (deliver (.array items.reverse .closed) frames)
  | .key members false, .closeObject => some (deliver (.object members.reverse .closed) frames)
  | .key members _, .string pieces => some (.within frames (.colon members pieces))
  | .colon members key, .colon => some (.within frames (.value members key))
  | .value members key, token => beginValue (.object members key :: frames) token
  | .afterMember members, .comma => some (.within frames (.key members true))
  | .afterMember members, .closeObject => some (deliver (.object members.reverse .closed) frames)
  | _, _ => none

def brokenArray (items : List Draft) (due : Due) (next : Option Token) : Draft :=
  .array items.reverse (.broken due next)

def brokenObject (members : List (List Piece × Draft)) (due : Due) (next : Option Token) : Draft :=
  .object members.reverse (.broken due next)

/-- The innermost container of a text that breaks off where something is due and `next` stands
there. -/
def brokenSlot (next : Option Token) : Slot → Draft
  | .root => .cut (.noValue next)
  | .item items comma =>
    match comma, next with
    | false, none => brokenArray items .firstItem none
    | true, none => brokenArray items .nextItem none
    | true, some .closeArray => brokenArray items .nextItem next
    -- what stands there may be the beginning of an item, and then has a flaw of its own
    | _, some _ => brokenArray (.cut (.noValue next) :: items) .itemComma none
  | .afterItem items => brokenArray items .itemComma next
  | .key members comma => brokenObject members (if comma then .nextKey else .firstKey) next
  | .colon members key =>
    brokenObject ((key, .cut (.noColon next.isNone)) :: members) .memberComma none
  | .value members key => brokenObject ((key, .cut (.noValue next)) :: members) .memberComma none
  | .afterMember members => brokenObject members .memberComma next

def wrap (inner : Draft) : List Frame → Draft
  | [] => inner
  | .array items :: frames => wrap (brokenArray (inner :: items) .itemComma none) frames
  | .object members key :: frames =>
    wrap (brokenObject ((key, inner) :: members) .memberComma none) frames

def build : Progress → List Token → Document
  | .done root, [] => ⟨root, false⟩
  | .done root, _ :: _ => ⟨root, true⟩
  | .within frames slot, [] => ⟨wrap (brokenSlot none slot) frames, false⟩
  | .within frames slot, token :: rest =>
    match move frames slot token with
    | some progress => build progress rest
    | none => ⟨wrap (brokenSlot (some token) slot) frames, false⟩

def ofTokens (tokens : List Token) : Document := build (.within [] .root) tokens

def ofText (text : String) : Document := ofTokens (tokens text.toList)

end Draft

end TurtleCode.Json
