import Caudium.Config.Regions
import Caudium.Lib.Mapping

/-!
# The resolver

Callbacks that wait for the name server are kept in lists, one for each name. The first one that
waits for a name starts the lookup, and `got_one_result` takes the list when the answer is there. A
callback is called at once where there is nothing to ask, or where the answer is in the cache.

Callbacks are of any type here, with their arguments. What they do is no part of this model.
-/

namespace Caudium.BaseServer.Hosts

open Lib (Str Mapping)
open Http (castInt splitOn)
open Config (decimal)

/-- What the name server is asked. -/
inductive LookupMode
  | ipToHost
  | hostToIp
  deriving DecidableEq

/-- The cache "hosts", the callbacks that wait, and the lookups that are not yet answered. -/
structure Resolver (φ : Type) where
  hosts : Mapping Str Str
  doWhenFound : Mapping Str (List φ)
  asked : List (LookupMode × Str)

variable {φ : Type}

def Resolver.empty : Resolver φ := ⟨∅, ∅, []⟩

/-- `ISIP`. -/
def isIp (h : Str) : Bool :=
  let entry := splitOn '.' h
  entry.length = 4 && entry.all fun s => decimal (castInt s) = s

/-- `if(host[-1] == '.') host=host[..strlen(host)-2];` -/
def withoutDot (host : Str) : Str :=
  if host.getLast? = some '.' then host.dropLast else host

/-- `LOOKUP`. -/
def lookup (mode : LookupMode) (name : Str) (cb : Option φ) (r : Resolver φ) : Resolver φ :=
  match r.doWhenFound.lookup name with
  | none => { r with
      doWhenFound := r.doWhenFound.insert name cb.toList
      asked := r.asked ++ [(mode, name)] }
  | some cbs =>
    match cb with
    | some cb => { r with doWhenFound := r.doWhenFound.insert name (cbs ++ [cb]) }
    | none => r

/-- `got_one_result`, up to the loop over the callbacks, which are the first component. -/
def gotOneResult (name : Str) (answer : Option Str) (r : Resolver φ) : List φ × Resolver φ :=
  let hosts := match answer with
    | some answer => r.hosts.insert name answer
    | none => r.hosts
  ((r.doWhenFound.lookup name).getD [],
    { r with hosts, doWhenFound := r.doWhenFound.erase name })

/-- How `ip_to_host` and `host_to_ip` end: the answer is in the cache, or it is asked for. The
first component is what the callback is called with, if it is. -/
def cachedOrLookup (mode : LookupMode) (name : Str) (callback : Option φ) (r : Resolver φ) :
    Option (Option Str) × Resolver φ :=
  match r.hosts.lookup name with
  | some entry => (some (some entry), r)
  | none => (none, lookup mode name callback r)

/-- `ip_to_host`; the number 0 is `none`. -/
def ipToHost (ipnumber : Option Str) (callback : Option φ) (r : Resolver φ) :
    Option (Option Str) × Resolver φ :=
  match ipnumber with
  | none => (some none, r)
  | some ip =>
    if castInt ip = 0 then (some (some ip), r) else cachedOrLookup .ipToHost ip callback r

def hostToIp (host : Option Str) (callback : Option φ) (r : Resolver φ) :
    Option (Option Str) × Resolver φ :=
  match host with
  | none => (some none, r)
  | some host =>
    if host = [] then (some none, r)
    else if isIp (withoutDot host) then (some (some (withoutDot host)), r)
    else cachedOrLookup .hostToIp (withoutDot host) callback r

/-- `quick_ip_to_host`, with what it returns. -/
def quickIpToHost (ipnumber : Option Str) (r : Resolver φ) : Option Str × Resolver φ :=
  match ipnumber with
  | none => (none, r)
  | some ip =>
    if castInt ip = 0 ∨ ip = [] then (some ip, r)
    else
      let ip := ip.takeWhile (· ≠ ' ')
      match r.hosts.lookup ip with
      | some foo => (some foo, r)
      | none => (some ip, lookup .ipToHost ip none r)

/-- `quick_host_to_ip`; the first character of an empty text cannot be had. -/
def quickHostToIp (h : Str) (r : Resolver φ) : Option Str × Resolver φ :=
  if h = [] then (none, r)
  else if isIp (withoutDot h) then (some (withoutDot h), r)
  else
    match r.hosts.lookup (withoutDot h) with
    | some foo => (some foo, r)
    | none => (some (withoutDot h), lookup .hostToIp (withoutDot h) none r)

/-- `blocking_host_to_ip`, up to `gethostbyname`; `none` when that is called. -/
def blockingHostToIp (host : Option Str) (r : Resolver φ) : Option (Option Str) :=
  match host with
  | none => some none
  | some host =>
    if host = [] then some (some host)
    else
      match r.hosts.lookup host with
      | some foo => some (some foo)
      | none => if isIp host then some (some host) else none

/-- What follows in it when `got_one_result` has returned. -/
def afterGotOneResult (host : Str) (r : Resolver φ) : Resolver φ :=
  { r with doWhenFound := r.doWhenFound.erase host }

end Caudium.BaseServer.Hosts
