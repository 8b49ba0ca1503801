import ContentModeration.Framework.Adversary
import ContentModeration.Impl.UrlFetch

/-!
# Where a fetch connects to

`fetchImageBytes` looks its host up twice: `_host_ips` checks the addresses of the
first answer, and `urllib` connects to one of the second (`secondLookup`). A fetch
opens at most one connection, to the first address of the second answer that accepts
it (`opened_fetch`), so what a fetch connects to was checked only if the two answers
agree (`opened_of_stable`).
-/

namespace CM

open Prog (Only)

/-- The addresses to which a conversation opened a connection. -/
def opened (h : List (Exchange netIface FetchExn)) : List Address :=
  h.filterMap fun x =>
    match x.req with
    | .connect a _ => if x.ans.toBool then some a else none
    | _ => none

/-- The first of some addresses to accept a connection, in a conversation that goes on from `h`. -/
def accepted (adv : Adversary netIface FetchExn) (port : Nat) :
    List Address → List (Exchange netIface FetchExn) → Option Address
  | [], _ => none
  | a :: as, h =>
    match adv h (.connect a port) with
    | .ok _ => some a
    | .error e =>
      if e.oserrorText.isSome then accepted adv port as (⟨.connect a port, .error e⟩ :: h) else none

/-- The conversation of `_host_ips`. -/
def firstLookup (adv : Adversary netIface FetchExn) (host : String) (port : Nat) :
    List (Exchange netIface FetchExn) :=
  [⟨.getaddrinfo host port, adv [] (.getaddrinfo host port)⟩]

/-- The host and the port that `urllib` connects to, if it gets that far. -/
def dialed (L : Urllib) (url : String) (defaultPort : Nat) : Option (String × Nat) :=
  match L.requestHost url with
  | .ok (host, port) => if host = "" then none else some (host, port.getD defaultPort)
  | .error _ => none

/-- Once the URL and the addresses of the first lookup have passed: the conversation so
far, and the host and the port that `urllib` connects to. -/
def secondLookup (L : Urllib) (url : String) (adv : Adversary netIface FetchExn) :
    Option (List (Exchange netIface FetchExn) × String × Nat) :=
  match checkUrl L url with
  | .error _ => none
  | .ok (cleaned, host, defaultPort, port) =>
    match adv [] (.getaddrinfo host port) with
    | .error _ => none
    | .ok addresses =>
      match checkAddresses addresses with
      | .error _ => none
      | .ok () => (dialed L cleaned defaultPort).map fun target => (firstLookup adv host port, target)

/-- The first address that `urllib`'s own lookup gives and that accepts a connection. -/
def answered (adv : Adversary netIface FetchExn) (h : List (Exchange netIface FetchExn)) (host : String)
    (port : Nat) :
    Option Address :=
  match adv h (.getaddrinfo host port) with
  | .ok addresses => accepted adv port addresses (⟨.getaddrinfo host port, .ok addresses⟩ :: h)
  | .error _ => none

variable {L : Urllib} {url : String} {adv : Adversary netIface FetchExn} {α β : Type}

/-! ## Programs that open no connection -/

def NotConnect : NetReq → Prop
  | .connect .. => False
  | _ => True

theorem opened_append (h h' : List (Exchange netIface FetchExn)) : opened (h ++ h') = opened h ++ opened h' :=
  List.filterMap_append

theorem opened_of_notConnect {h : List (Exchange netIface FetchExn)} (hn : ∀ x ∈ h, NotConnect x.req) :
    opened h = [] := by
  refine List.filterMap_eq_nil_iff.mpr fun x hx => ?_
  have := hn x hx
  obtain ⟨q, r⟩ := x
  cases q
  case connect => exact this.elim
  all_goals rfl

/-- A program that makes no connection opens none. -/
theorem opened_of_only {p : Fetch α} (hp : p.Only NotConnect) (h : List (Exchange netIface FetchExn)) :
    opened (p.exec adv h).1 = opened h := by
  obtain ⟨new, hnew, hn⟩ : ∃ new, (p.exec adv h).1 = new ++ h ∧ _ := Prog.exec_of_only hp
  rw [hnew, opened_append, opened_of_notConnect hn, List.nil_append]

/-- The rest of a program that makes no connection opens none. -/
theorem opened_bind {p : Fetch α} {f : α → Fetch β} (hf : ∀ a, (f a).Only NotConnect)
    (h : List (Exchange netIface FetchExn)) : opened ((p >>= f).exec adv h).1 = opened (p.exec adv h).1 := by
  rw [Prog.exec_bind]
  generalize p.exec adv h = r
  obtain ⟨h', e | a⟩ := r
  · rfl
  · exact opened_of_only (hf a) h'

theorem getresponse_only : getresponse.Only NotConnect := Only.perform (I := netIface) (q := .getresponse) trivial

theorem readChunks_only (room : Nat) : (readChunks room).Only NotConnect := by
  induction room using readChunks.induct with
  | case1 room ih =>
    rw [readChunks]
    refine Only.bind (Only.perform trivial) fun chunk => ?_
    split
    · trivial
    · split
      · trivial
      · rename_i hne hr
        exact Only.bind (ih chunk hne hr) fun _ => trivial

/-! ## The connection -/

/-- `create_connection` opens a connection to the first address that accepts it. -/
theorem opened_createConnection (port : Nat) (last : FetchExn) (as : List Address)
    (h : List (Exchange netIface FetchExn)) :
    opened ((createConnection port last as).exec adv h).1 = (accepted adv port as h).toList ++ opened h := by
  induction as generalizing h last with
  | nil => rfl
  | cons a as ih =>
    have hc : (connect a port).exec adv h =
        (⟨.connect a port, adv h (.connect a port)⟩ :: h, adv h (.connect a port)) :=
      Prog.exec_perform (I := netIface) (NetReq.connect a port)
    unfold createConnection accepted
    generalize adv h (.connect a port) = r at hc ⊢
    cases r with
    | ok u =>
      rw [Prog.tryCatch_def, Prog.exec_tryCatch_ok hc]
      rfl
    | error e =>
      rw [Prog.tryCatch_def, Prog.exec_tryCatch_error hc]
      dsimp only
      split
      · rw [ih]
        rfl
      · rfl

theorem exec_getaddrinfo (host : String) (port : Nat) (h : List (Exchange netIface FetchExn)) :
    (getaddrinfo host port).exec adv h =
      (⟨.getaddrinfo host port, adv h (.getaddrinfo host port)⟩ :: h, adv h (.getaddrinfo host port)) :=
  Prog.exec_perform (I := netIface) (NetReq.getaddrinfo host port)

theorem opened_connectHost (host : String) (port : Nat) (h : List (Exchange netIface FetchExn)) :
    opened ((connectHost host port).exec adv h).1 = (answered adv h host port).toList ++ opened h := by
  have hg : (getaddrinfo host port).exec adv h = _ := exec_getaddrinfo host port h
  unfold connectHost answered
  generalize adv h (.getaddrinfo host port) = r at hg ⊢
  cases r with
  | ok addresses => rw [Prog.exec_bind_ok hg, opened_createConnection]; rfl
  | error e => rw [Prog.exec_bind_error hg]; rfl

/-- What `opener.open` opens is the first address of its own lookup to accept. -/
theorem opened_openUrl (defaultPort : Nat) (h : List (Exchange netIface FetchExn)) :
    opened ((openUrl L url defaultPort).exec adv h).1 =
      ((dialed L url defaultPort).bind fun t => answered adv h t.1 t.2).toList ++ opened h := by
  unfold openUrl dialed
  cases L.requestHost url with
  | error e => rfl
  | ok target =>
    obtain ⟨host, port⟩ := target
    by_cases hh : host = ""
    · subst hh
      rfl
    · have silent : ∀ resp, ((do Prog.ofExcept (httpResponse L resp); pure resp : Fetch RespHead)).Only NotConnect :=
        fun resp => Only.bind .ofExcept fun _ => trivial
      rw [Prog.ofExcept_ok_bind]
      dsimp only
      rw [if_neg hh, if_neg hh, opened_bind fun _ => Only.bind getresponse_only silent,
        Prog.exec_tryCatch_throw, opened_connectHost]
      rfl

theorem opened_download (defaultPort maxBytes : Nat) (h : List (Exchange netIface FetchExn)) :
    opened ((download L url defaultPort maxBytes).exec adv h).1 =
      opened ((openUrl L url defaultPort).exec adv h).1 := by
  have silent : ∀ resp : RespHead, (do
      let data ← readChunks maxBytes
      return (data, resp.contentType) : Fetch (List UInt8 × Option String)).Only NotConnect :=
    fun resp => Only.bind (readChunks_only maxBytes) fun _ => trivial
  exact opened_bind silent h

/-- The conversation of the first lookup, and its result. -/
theorem exec_lookup (adv : Adversary netIface FetchExn) (host : String) (port : Nat) :
    (tryCatch (getaddrinfo host port) fun e => throw (resolveError e) : Fetch (List Address)).exec adv [] =
      (firstLookup adv host port, (adv [] (.getaddrinfo host port)).mapError resolveError) := by
  rw [Prog.exec_tryCatch_throw, exec_getaddrinfo]
  rfl

/-- A fetch opens at most one connection: to the first address that its second lookup
gives and that accepts one. -/
theorem opened_fetch (maxBytes : Nat) :
    opened ((fetchImageBytes L url maxBytes).exec adv []).1 =
      ((secondLookup L url adv).bind fun t => answered adv t.1 t.2.1 t.2.2).toList := by
  unfold fetchImageBytes secondLookup
  cases checkUrl L url with
  | error e => rfl
  | ok checked =>
    obtain ⟨cleaned, host, defaultPort, port⟩ := checked
    have hg := exec_lookup adv host port
    rw [Prog.ofExcept_ok_bind]
    dsimp only
    cases hr : adv [] (.getaddrinfo host port) with
    | error e =>
      rw [hr] at hg
      rw [Prog.exec_bind_error hg]
      rfl
    | ok addresses =>
      rw [hr] at hg
      rw [Prog.exec_bind_ok hg]
      dsimp only
      cases checkAddresses addresses with
      | error e => rfl
      | ok u =>
        have silent : ∀ r : List UInt8 × Option String, (do
            if r.1 = [] then throw (.imageFetchError "remote image was empty")
            let contentType ← Prog.ofExcept (sniffContentType L r.1 r.2)
            return (r.1, contentType) : Fetch (List UInt8 × String)).Only NotConnect := by
          intro r
          by_cases hd : r.1 = []
          · rw [if_pos hd]
            trivial
          · rw [if_neg hd]
            exact Only.bind .ofExcept fun _ => trivial
        rw [Prog.ofExcept_ok_bind, opened_bind silent, Prog.exec_tryCatch_throw, opened_download, opened_openUrl]
        cases dialed L cleaned defaultPort <;> simp [firstLookup, opened]

theorem mem_of_accepted {port : Nat} {as : List Address} {h : List (Exchange netIface FetchExn)} {a : Address}
    (ha : accepted adv port as h = some a) : a ∈ as := by
  induction as generalizing h with
  | nil => cases ha
  | cons b as ih =>
    unfold accepted at ha
    split at ha
    · cases ha
      exact List.mem_cons_self
    · split at ha
      · exact List.mem_cons_of_mem _ (ih ha)
      · cases ha

theorem checkAddresses_ok {addresses : List Address} (h : checkAddresses addresses = .ok ()) {a : Address}
    (ha : a ∈ addresses) : isBlockedIp a = false := by
  unfold checkAddresses at h
  split at h
  · cases h
  · split at h
    · cases h
    · rename_i hb
      simpa using fun hblocked => hb (List.any_eq_true.mpr ⟨a, ha, hblocked⟩)

/-- What precedes the second lookup. -/
theorem checked_of_secondLookup {t : List (Exchange netIface FetchExn) × String × Nat}
    (ht : secondLookup L url adv = some t) :
    ∃ cleaned host defaultPort port addresses, checkUrl L url = .ok (cleaned, host, defaultPort, port) ∧
      adv [] (.getaddrinfo host port) = .ok addresses ∧ checkAddresses addresses = .ok () ∧
      dialed L cleaned defaultPort = some t.2 := by
  unfold secondLookup at ht
  split at ht
  · cases ht
  · rename_i cleaned host defaultPort port hcheck
    split at ht
    · cases ht
    · rename_i addresses hadv
      split at ht
      · cases ht
      · rename_i hok
        obtain ⟨target, hd, rfl⟩ := Option.map_eq_some_iff.mp ht
        exact ⟨cleaned, host, defaultPort, port, addresses, hcheck, hadv, hok, hd⟩

/-- The checks suffice where `urllib` reads the host and the port that they read, and the
resolver answers a name always the same. -/
theorem opened_of_stable (maxBytes : Nat)
    (hhost : ∀ cleaned host defaultPort port, checkUrl L url = .ok (cleaned, host, defaultPort, port) →
      dialed L cleaned defaultPort = some (host, port))
    (hadv : ∀ h host port, adv h (.getaddrinfo host port) = adv [] (.getaddrinfo host port)) :
    ∀ a ∈ opened ((fetchImageBytes L url maxBytes).exec adv []).1, isBlockedIp a = false := by
  intro a ha
  rw [opened_fetch, Option.mem_toList, Option.bind_eq_some_iff] at ha
  obtain ⟨⟨h, target⟩, ht, ha⟩ := ha
  obtain ⟨cleaned, host, defaultPort, port, addresses, hcheck, hfirst, hok, hd⟩ := checked_of_secondLookup ht
  rw [hhost cleaned host defaultPort port hcheck] at hd
  obtain rfl : (host, port) = target := Option.some.inj hd
  unfold answered at ha
  rw [hadv h, hfirst] at ha
  exact checkAddresses_ok hok (mem_of_accepted ha)

end CM
