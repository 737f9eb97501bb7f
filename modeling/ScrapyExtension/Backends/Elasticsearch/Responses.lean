import ScrapyExtension.Json.Syntax
import ScrapyExtension.Py.Base64

/-!
# The responses of Elasticsearch

A response proves an outcome or it does not. The validators get whatever the service sent: each field may
be missing, or of another type. What they reject is an `_ElasticSearchResponseError`, which is `none` here.
-/

namespace ScrapyExtension

open Py Json

namespace Elasticsearch

/-- How a call of the client ends. -/
inductive Answer
  | response (body : Value)
  /-- `NotFoundError`: HTTP 404 -/
  | notFound
  /-- `ConflictError`: HTTP 409 -/
  | conflict
  /-- Any other `ApiError` -/
  | apiError
  | transportError

/-- The service has answered with an HTTP error. -/
def Answer.IsHttpError : Answer → Prop
  | .notFound | .conflict | .apiError => True
  | .response _ | .transportError => False

/-! ## Fields -/

abbrev Mapping := List (Str × Value)

/-- `isinstance(value, Mapping)` -/
def asMapping : Value → Option Mapping
  | .obj ms => some ms
  | _ => none

def asList : Value → Option (List Value)
  | .arr xs => some xs
  | _ => none

def asStr : Value → Option Str
  | .str s => some s
  | _ => none

/-- An `int` that is not a `bool`. -/
def asInt : Value → Option ℤ
  | .int i => some i
  | _ => none

/-- `body.get(name)` -/
def field (body : Mapping) (name : String) : Value := (body.lookup (str name)).getD .null

/-- `_exact_nonnegative_int` -/
def exactNonnegativeInt (v : Value) : Option ℕ :=
  (asInt v).bind fun i ↦ if i < 0 then none else some i.toNat

/-! ## Validators -/

/-- `_validate_shards` -/
def validateShards (response : Value) (requireSuccess : Bool) : Option Unit := do
  let body ← asMapping response
  let shards ← asMapping (field body "_shards")
  let total ← exactNonnegativeInt (field shards "total")
  let successful ← exactNonnegativeInt (field shards "successful")
  let failed ← exactNonnegativeInt (field shards "failed")
  let skipped ← exactNonnegativeInt ((shards.lookup (str "skipped")).getD (.int 0))
  guard (failed = 0 ∧ successful + failed ≤ total ∧ skipped ≤ successful)
  let failures ← asList ((shards.lookup (str "failures")).getD (.arr []))
  guard failures.isEmpty
  -- A primary is enough for a write; a read has to account for every shard.
  if requireSuccess then guard (successful ≠ 0) else guard (successful + failed = total)

/-- `_validate_refresh_response` -/
def validateRefreshResponse (response : Value) : Option Unit := validateShards response true

/-- `_validate_mutation_identity` -/
def validateMutationIdentity (body : Mapping) (expectedIndex expectedId : Str) : Option Unit :=
  guard (asStr (field body "_index") = some expectedIndex ∧ asStr (field body "_id") = some expectedId)

/-- `_validate_delete_response`: whether the document was deleted -/
def validateDeleteResponse (response : Value) (expectedIndex expectedId : Str) : Option Bool := do
  validateShards response true
  let body ← asMapping response
  validateMutationIdentity body expectedIndex expectedId
  let result ← asStr (field body "result")
  if result = str "deleted" then some true
  else if result = str "not_found" then some false
  else none

/-- `_validate_search_response`: the hits, of which there is one at most -/
def validateSearchResponse (response : Value) : Option (List Value) := do
  let body ← asMapping response
  match field body "timed_out" with
  | .bool false => some ()
  | _ => none
  validateShards (.obj body) false
  let hitsBlock ← asMapping (field body "hits")
  let total ← asMapping (field hitsBlock "total")
  guard (asStr (field total "relation") = some (str "eq"))
  let totalValue ← exactNonnegativeInt (field total "value")
  let hits ← asList (field hitsBlock "hits")
  guard (hits.length ≤ 1)
  guard (totalValue = 0 ↔ hits.length = 0)
  some hits

/-- What a pop reads of a hit. -/
structure Hit where
  id : Str
  seqNo : ℤ
  primaryTerm : ℤ
  item : Bytes
deriving DecidableEq

/-- `_decode_queue_hit`; `none` when it raises -/
def decodeQueueHit (hit : Value) : Option Hit := do
  let hit ← asMapping hit
  let id ← asStr (field hit "_id")
  guard (id ≠ [])
  let seqNo ← asInt (field hit "_seq_no")
  let primaryTerm ← asInt (field hit "_primary_term")
  let source ← asMapping (field hit "_source")
  let item ← asStr (field source "item")
  let item ← Base64.decode item
  some ⟨id, seqNo, primaryTerm, item⟩

end Elasticsearch

end ScrapyExtension
