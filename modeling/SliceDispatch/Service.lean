import SliceDispatch.Json.Reader
import SliceDispatch.Slicing
import SliceDispatch.Wire.Annotations
import SliceDispatch.Wire.Request

namespace SliceDispatch.Service

inductive Response where
  /-- The body does not describe a catalog and a plan. -/
  | refused (reason : Json.Refusal)
  | rejected (fault : Fault)
  | annotated (annotations : Annotations)
deriving Inhabited

namespace Response

def status : Response → Nat
  | .refused .unreadable => 400
  | .refused .undecodable | .rejected _ => 422
  | .annotated _ => 200

def body? : Response → Option Json
  | .refused _ => none
  | .rejected fault => some (.text ("Invalid plan: " ++ fault.message))
  | .annotated annotations =>
    some (.object (annotations.fields ++ [("summary", annotations.summary)]))

end Response

def respond (config : Config) (request : Request) : Response :=
  match request.plan.annotate request.catalog config with
  | .ok annotations => .annotated annotations
  | .error fault => .rejected fault

def respondTo (config : Config) (body : Json.Draft) : Response :=
  match Request.ofDraft body with
  | .ok request => respond config request
  | .error reason => .refused reason

def annotateJson (config : Config) (body : Json) : Response := respondTo config (.ofJson body)

/-- The answer to the text of a body. What follows the first value in it is not read. -/
def annotate (config : Config) (body : String) : Response := respondTo config (.ofText body)

theorem annotate_of_read? {config : Config} {text : String} {body : Json}
    (h : Json.read? text = some body) : annotate config text = annotateJson config body := by
  simp only [Json.read?] at h
  split at h
  · rw [annotateJson, Json.Draft.ofJson_of_toJson? h]
    rfl
  · simp at h

def health : Json := .object [("status", .text "ok")]

end SliceDispatch.Service
