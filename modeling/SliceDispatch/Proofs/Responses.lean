import SliceDispatch.Proofs.Renderings
import SliceDispatch.Proofs.Slices
import SliceDispatch.Service

namespace SliceDispatch

namespace Annotations

end Annotations

namespace Service

variable {config : Config} {body : Json.Draft} {request : Request}

end Service
end SliceDispatch
