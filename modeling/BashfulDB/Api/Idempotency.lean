import BashfulDB.Api.Json
import BashfulDB.Library.Expiry

/-! The response cache of the HTTP layer. Instants are nanoseconds of a monotonic clock. -/
namespace BashfulDB.Api

/-- Fifteen minutes. -/
def retention : Nat := 15 * 60 * 1000000000

structure CachedResponse where
  body : JsonValue
  status : Nat
  payloadHash : Nat
  storedAt : Nat

structure IdempotencyCache where
  entries : OrdMap String CachedResponse

namespace IdempotencyCache

def new : IdempotencyCache := ⟨OrdMap.empty⟩

/-- FNV-1a. -/
def hashPayload (payload : Bytes) : UInt64 :=
  payload.foldl (fun hash byte => (hash ^^^ byte.toUInt64) * 0x100000001b3) 0xcbf29ce484222325

def prune (cache : IdempotencyCache) (now : Nat) : IdempotencyCache :=
  ⟨Expiry.prune CachedResponse.storedAt retention cache.entries now⟩

/-- The `Err(())` of the source, a key seen with another payload, is `.error ()`. -/
def get (cache : IdempotencyCache) (key : String) (payloadHash now : Nat) :
    Except Unit (Option CachedResponse) × IdempotencyCache :=
  let cache := cache.prune now
  match cache.entries.get key with
  | none => (.ok none, cache)
  | some entry =>
    if entry.payloadHash = payloadHash then (.ok (some entry), cache) else (.error (), cache)

def store (cache : IdempotencyCache) (key : String) (payloadHash : Nat) (body : JsonValue)
    (status now : Nat) : IdempotencyCache :=
  ⟨cache.entries.insert key ⟨body, status, payloadHash, now⟩⟩

end IdempotencyCache

end BashfulDB.Api
