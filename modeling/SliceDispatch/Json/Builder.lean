import SliceDispatch.Json.Draft

namespace SliceDispatch.Json

inductive Token where
  | openArray | closeArray | openObject | closeObject | comma | colon
  | string (value : Draft)
  /-- A number, a truth value or null. -/
  | scalar (value : Draft)
  /-- Characters that make no token. -/
  | fault

/-- An array or object whose end has not been read; what it holds so far, latest first. A name has a
broken value until that is read. -/
inductive Frame where
  | array (items : List Draft)
  | object (fields : List (Draft × Draft))

namespace Frame

def put (value : Draft) : Frame → Frame
  | .array items => .array (value :: items)
  | .object ((name, _) :: fields) => .object ((name, value) :: fields)
  | .object [] => .object []

def close (ended : Bool) : Frame → Draft
  | .array items => .array items.reverse ended
  | .object fields => .object fields.reverse ended

end Frame

inductive Awaiting where
  | value
  | valueOrClose
  | commaOrClose
  | name
  | nameOrClose
  | colon

inductive Builder where
  | building (frames : List Frame) (awaiting : Awaiting)
  | built (draft : Draft)

namespace Builder

def start : Builder := .building [] .value

/-- What there is when reading stops inside these frames. -/
def cutShort : List Frame → Draft
  | [] => .broken
  | frame :: frames =>
    frames.foldl (fun inner outer => (outer.put inner).close false) (frame.close false)

def put (value : Draft) : List Frame → Builder
  | [] => .built value
  | frame :: frames => .building (frame.put value :: frames) .commaOrClose

def value? (frames : List Frame) : Token → Option Builder
  | .string value | .scalar value => some (put value frames)
  | .openArray => some (.building (.array [] :: frames) .valueOrClose)
  | .openObject => some (.building (.object [] :: frames) .nameOrClose)
  | _ => none

def name? (fields : List (Draft × Draft)) (frames : List Frame) : Token → Option Builder
  | .string name => some (.building (.object ((name, .broken) :: fields) :: frames) .colon)
  | .scalar name => some (misnamed name)
  | .openArray => some (misnamed (.array [] false))
  | .openObject => some (misnamed (.object [] false))
  | _ => none
where
  misnamed (name : Draft) : Builder :=
    .built (cutShort (.object ((name, .broken) :: fields) :: frames))

def close? : List Frame → Token → Option Builder
  | .array items :: frames, .closeArray => some (put (.array items.reverse true) frames)
  | .object fields :: frames, .closeObject => some (put (.object fields.reverse true) frames)
  | _, _ => none

def comma? : List Frame → Token → Option Builder
  | .array items :: frames, .comma => some (.building (.array items :: frames) .value)
  | .object fields :: frames, .comma => some (.building (.object fields :: frames) .name)
  | _, _ => none

def colon? (frames : List Frame) : Token → Option Builder
  | .colon => some (.building frames .value)
  | _ => none

def step? (frames : List Frame) (awaiting : Awaiting) (token : Token) : Option Builder :=
  match awaiting, frames with
  | .value, _ => value? frames token
  | .valueOrClose, _ => value? frames token <|> close? frames token
  | .commaOrClose, _ => comma? frames token <|> close? frames token
  | .name, .object fields :: outer => name? fields outer token
  | .nameOrClose, .object fields :: outer => name? fields outer token <|> close? frames token
  | .colon, _ => colon? frames token
  | _, _ => none

def step : Builder → Token → Builder
  | .built draft, _ => .built draft
  | .building frames awaiting, token =>
    (step? frames awaiting token).getD (.built (cutShort frames))

def draft : Builder → Draft
  | .built draft => draft
  | .building frames _ => cutShort frames

end Builder
end SliceDispatch.Json
