import BlockstreamStation.SettingsStore
import Mathlib.Data.List.TakeDrop

/-!
# The login decision

`server/cgi-bin/login.c` compares the submitted user name and password with two
pairs of settings.  The submitted values come through cgic into buffers of
twenty bytes, which keep the first nineteen of each; the settings come from
`get_value`, which for an undefined key stores into the empty string literal the
program passes.

`login_exact_iff` says exactly for which files and submissions the outcome is
the one the settings ask for: every key that is looked up must be defined, and
no submission longer than a buffer may meet the configured values, cut or uncut.
-/

namespace Login

open CText Settings

/-! ## Form values -/

/-- `cgiFormEntry`: name and value of a submitted field. -/
structure FormEntry where
  attr : Bytes
  value : Bytes
deriving DecidableEq, Repr

/-- `cgiFormResultType`, as far as the string functions return it. -/
inductive FormResult
  | success
  | truncated
  | empty
  | notFound
deriving DecidableEq, Repr

def carriageReturn : UInt8 := 13

/-- A burst of `crCount` and `lfCount` line ends becomes the larger number of
line feeds, as far as they fit, or none at all when line ends are not wanted. -/
def flushNewlines (avail : Nat) (newlines : Bool) (crCount lfCount : Nat)
    (result : Bytes) (truncated : Bool) : Bytes × Bool :=
  let lfsAdd := if newlines then max crCount lfCount else 0
  let room := avail - result.length
  (result ++ List.replicate (min lfsAdd room) newline, truncated || decide (room < lfsAdd))

/-- The loop of `cgiFormEntryString` over the rest of the source string: what has
been written when it ends, and whether anything was cut off. -/
def entryStringLoop (avail : Nat) (newlines : Bool) :
    Bytes → Nat → Nat → Bytes → Bool → Bytes × Bool
  | [], crCount, lfCount, result, truncated =>
      flushNewlines avail newlines crCount lfCount result truncated
  | ch :: rest, crCount, lfCount, result, truncated =>
      if ch = carriageReturn then
        entryStringLoop avail newlines rest (crCount + 1) lfCount result truncated
      else if ch = newline then
        entryStringLoop avail newlines rest crCount (lfCount + 1) result truncated
      else
        let flushed := flushNewlines avail newlines crCount lfCount result truncated
        if avail ≤ flushed.1.length then (flushed.1, true)
        else entryStringLoop avail newlines rest 0 0 (flushed.1 ++ [ch]) flushed.2

def cgiFormEntryString (entry : FormEntry) (max : Nat) (newlines : Bool) :
    Bytes × FormResult :=
  let (result, truncated) := entryStringLoop (max - 1) newlines entry.value 0 0 [] false
  (result,
    if truncated then .truncated else if result.length = 0 then .empty else .success)

/-- The first entry of a name decides. -/
def cgiFormStringNoNewlines (form : List FormEntry) (name : Bytes) (max : Nat) :
    Bytes × FormResult :=
  match form.find? fun entry => entry.attr = name with
  | none => ([], .notFound)
  | some entry => cgiFormEntryString entry max false

/-- Without line ends in it, a value is copied as far as it fits. -/
theorem entryStringLoop_eq (avail : Nat) :
    ∀ (source result : Bytes) (truncated : Bool), newline ∉ source →
      carriageReturn ∉ source → result.length ≤ avail →
      (entryStringLoop avail false source 0 0 result truncated).1 =
        (result ++ source).take avail := by
  intro source
  induction source with
  | nil =>
      intro result truncated _ _ hlen
      simp [entryStringLoop, flushNewlines, List.take_of_length_le hlen]
  | cons ch rest ih =>
      intro result truncated hnewline hreturn hlen
      have h1 : ch ≠ carriageReturn := fun h => hreturn (h ▸ List.mem_cons_self)
      have h2 : ch ≠ newline := fun h => hnewline (h ▸ List.mem_cons_self)
      have hflush : flushNewlines avail false 0 0 result truncated = (result, truncated) := by
        simp [flushNewlines]
      rw [entryStringLoop, if_neg h1, if_neg h2, hflush]
      by_cases hfull : avail ≤ result.length
      · have heq : avail = result.length := by omega
        simp [heq]
      · simp only [if_neg hfull]
        rw [ih (result ++ [ch]) truncated (fun h => hnewline (List.mem_cons_of_mem _ h))
          (fun h => hreturn (List.mem_cons_of_mem _ h)) (by simp; omega)]
        simp

/-! ## The page -/

def maxLine : Nat := 200

def errMsg : Bytes := text "error , wrong username or password"

def okMsg : Bytes := text "ok"

/-- The `Set-Cookie` header of `cgiHeaderCookieSetInteger`, without the server's
own name. -/
structure Cookie where
  name : Bytes
  value : Int
  secondsToLive : Nat
  path : Bytes
deriving DecidableEq, Repr

/-- The cookie `login.c` sets, for a user (`1`) or an administrator (`2`). -/
def loginCookie (status : Int) : Cookie where
  name := text "cookie_login_status"
  value := status
  secondsToLive := 30 * 60
  path := text "/Nexion_design"

/-- What the page sends. -/
structure Response where
  cookies : List Cookie
  body : Bytes
deriving DecidableEq, Repr

/-- One of the two nested comparisons of `cgiMain`.  The password is looked up
only when the name matches. -/
def credentialsMatch (file : Option Bytes) (nameKey passwordKey username password : Bytes) :
    Option Bool := do
  let name ← getValueInto .literal maxLine file nameKey
  if name = username then
    let pw ← getValueInto .literal maxLine file passwordKey
    some (decide (pw = password))
  else
    some false

/-- `cgiMain` of `login.c`; `none` is the undefined store of `get_value`. -/
def cgiMain (file : Option Bytes) (form : List FormEntry) : Option Response := do
  let username := (cgiFormStringNoNewlines form (text "username") 20).1
  let password := (cgiFormStringNoNewlines form (text "password") 20).1
  let user ← credentialsMatch file (text "username") (text "userpw") username password
  let admin ← credentialsMatch file (text "adminname") (text "adminpw") username password
  some {
    cookies := (if user then [loginCookie 1] else []) ++ (if admin then [loginCookie 2] else [])
    body := if user || admin then okMsg else errMsg }

/-! ## The decision -/

/-- The file defines `key` to be `value`. -/
def Defines (content key value : Bytes) : Prop :=
  firstDefinition key (lines content) = some value

instance (content key value : Bytes) : Decidable (Defines content key value) := by
  unfold Defines; infer_instance

/-- The submission names a configured pair. -/
def Configured (content nameKey passwordKey u p : Bytes) : Prop :=
  Defines content nameKey u ∧ Defines content passwordKey p

instance (content nameKey passwordKey u p : Bytes) :
    Decidable (Configured content nameKey passwordKey u p) := by
  unfold Configured; infer_instance

/-- The page does for `u` and `p` exactly what the settings ask for. -/
structure Exact (content u p : Bytes) (response : Response) : Prop where
  user : loginCookie 1 ∈ response.cookies ↔
    Configured content (text "username") (text "userpw") u p
  admin : loginCookie 2 ∈ response.cookies ↔
    Configured content (text "adminname") (text "adminpw") u p
  ok : response.body = okMsg ↔
    Configured content (text "username") (text "userpw") u p ∨
      Configured content (text "adminname") (text "adminpw") u p
  refused : ¬Configured content (text "username") (text "userpw") u p →
    ¬Configured content (text "adminname") (text "adminpw") u p →
    response.body = errMsg ∧ response.cookies = []

/-- Both values fit the twenty-byte buffers. -/
def FitBuffers (u p : Bytes) : Prop := u.length ≤ 19 ∧ p.length ≤ 19

/-- The condition on one pair of keys: the keys that are looked up are defined,
and a submission too long for the buffers meets the configured values neither
cut nor uncut. -/
structure PairSettled (content nameKey passwordKey u p : Bytes) : Prop where
  name_defined : ∃ name, Defines content nameKey name
  password_defined : Defines content nameKey (u.take 19) →
    ∃ pw, Defines content passwordKey pw
  no_cut_match : Configured content nameKey passwordKey (u.take 19) (p.take 19) →
    FitBuffers u p
  no_long_credential : Configured content nameKey passwordKey u p → FitBuffers u p

theorem getValueInto_literal {content : Bytes} (hnul : 0 ∉ content)
    (hfit : ∀ line ∈ lines content, line.length ≤ maxLine - 1) (key : Bytes) :
    getValueInto .literal maxLine (some content) key = firstDefinition key (lines content) := by
  unfold getValueInto
  rw [Option.bind_some, getValue_eq_lines hnul hfit]
  cases firstDefinition key (lines content) <;> rfl

section Decision

variable {content u p : Bytes}

theorem credentialsMatch_eq (hnul : 0 ∉ content)
    (hfit : ∀ line ∈ lines content, line.length ≤ maxLine - 1)
    (nameKey passwordKey u p : Bytes) :
    credentialsMatch (some content) nameKey passwordKey u p =
      (firstDefinition nameKey (lines content)).bind fun name =>
        if name = u then
          (firstDefinition passwordKey (lines content)).bind fun pw => some (decide (pw = p))
        else some false := by
  unfold credentialsMatch
  rw [getValueInto_literal hnul hfit, getValueInto_literal hnul hfit]
  rfl

/-- Values that fit are not cut. -/
theorem fitBuffers_iff : FitBuffers u p ↔ u.take 19 = u ∧ p.take 19 = p := by
  rw [FitBuffers, List.take_eq_self_iff, List.take_eq_self_iff]

/-- If a comparison completes and agrees with the settings, its pair is
settled. -/
theorem pairSettled_of_exact {nameKey passwordKey : Bytes} {granted : Bool}
    (hgranted : ((firstDefinition nameKey (lines content)).bind fun name =>
      if name = u.take 19 then
        (firstDefinition passwordKey (lines content)).bind fun pw =>
          some (decide (pw = p.take 19))
      else some false) = some granted)
    (hiff : granted = true ↔ Configured content nameKey passwordKey u p) :
    PairSettled content nameKey passwordKey u p := by
  obtain ⟨name, hname, hgranted⟩ := Option.bind_eq_some_iff.mp hgranted
  by_cases heq : name = u.take 19
  · rw [if_pos heq] at hgranted
    obtain ⟨pw, hpw, hgranted⟩ := Option.bind_eq_some_iff.mp hgranted
    have hdecision : granted = decide (pw = p.take 19) := (Option.some.inj hgranted).symm
    refine ⟨⟨name, hname⟩, fun _ => ⟨pw, hpw⟩, ?_, ?_⟩
    · intro hparts
      obtain ⟨-, hcutpw⟩ := hparts
      have hpwcut : pw = p.take 19 := Option.some.inj (hpw.symm.trans hcutpw)
      obtain ⟨hu, hp⟩ := hiff.mp (by rw [hdecision]; exact decide_eq_true hpwcut)
      exact fitBuffers_iff.mpr ⟨heq ▸ Option.some.inj (hname.symm.trans hu),
        hpwcut ▸ Option.some.inj (hpw.symm.trans hp)⟩
    · intro hconfigured
      have hpwcut : pw = p.take 19 :=
        of_decide_eq_true (hdecision ▸ hiff.mpr hconfigured)
      exact fitBuffers_iff.mpr ⟨heq ▸ Option.some.inj (hname.symm.trans hconfigured.1),
        hpwcut ▸ Option.some.inj (hpw.symm.trans hconfigured.2)⟩
  · rw [if_neg heq] at hgranted
    have hno : ¬Configured content nameKey passwordKey u p := by
      intro h
      have := hiff.mpr h
      rw [← Option.some.inj hgranted] at this
      exact absurd this (by decide)
    refine ⟨⟨name, hname⟩, ?_, ?_, fun h => absurd h hno⟩
    · intro h
      exact absurd (Option.some.inj (hname.symm.trans h)) heq
    · intro hparts
      obtain ⟨h, -⟩ := hparts
      exact absurd (Option.some.inj (hname.symm.trans h)) heq

/-- For a settled pair the comparison completes and agrees with the settings. -/
theorem exact_of_pairSettled {nameKey passwordKey : Bytes}
    (hsettled : PairSettled content nameKey passwordKey u p) :
    ∃ granted, ((firstDefinition nameKey (lines content)).bind fun name =>
      if name = u.take 19 then
        (firstDefinition passwordKey (lines content)).bind fun pw =>
          some (decide (pw = p.take 19))
      else some false) = some granted ∧
        (granted = true ↔ Configured content nameKey passwordKey u p) := by
  obtain ⟨name, hname⟩ := hsettled.name_defined
  have hlookup : firstDefinition nameKey (lines content) = some name := hname
  by_cases heq : name = u.take 19
  · obtain ⟨pw, hpw⟩ := hsettled.password_defined (heq ▸ hname)
    have hlookupPw : firstDefinition passwordKey (lines content) = some pw := hpw
    refine ⟨decide (pw = p.take 19), ?_, ?_⟩
    · rw [hlookup, Option.bind_some, if_pos heq, hlookupPw, Option.bind_some]
    · rw [decide_eq_true_iff]
      constructor
      · intro hpwcut
        obtain ⟨hu, hp⟩ :=
          fitBuffers_iff.mp (hsettled.no_cut_match ⟨heq ▸ hname, hpwcut ▸ hpw⟩)
        exact ⟨by rw [← hu, ← heq]; exact hname, by rw [← hp, ← hpwcut]; exact hpw⟩
      · intro hconfigured
        obtain ⟨_, hp⟩ := fitBuffers_iff.mp (hsettled.no_long_credential hconfigured)
        rw [hp]
        exact Option.some.inj (hpw.symm.trans hconfigured.2)
  · refine ⟨false, by rw [hlookup, Option.bind_some, if_neg heq], ?_⟩
    constructor
    · intro h
      exact absurd h (by decide)
    · intro hconfigured
      obtain ⟨hu, _⟩ := fitBuffers_iff.mp (hsettled.no_long_credential hconfigured)
      have hnameEq : name = u := Option.some.inj (hname.symm.trans hconfigured.1)
      exact absurd (hnameEq.trans hu.symm) heq

/-- One comparison of `cgiMain` completes and agrees with the settings exactly
when its pair of keys is settled. -/
theorem credentialsMatch_exact_iff (hnul : 0 ∉ content)
    (hfit : ∀ line ∈ lines content, line.length ≤ maxLine - 1)
    (nameKey passwordKey : Bytes) :
    (∃ granted, credentialsMatch (some content) nameKey passwordKey (u.take 19) (p.take 19) =
        some granted ∧ (granted = true ↔ Configured content nameKey passwordKey u p)) ↔
      PairSettled content nameKey passwordKey u p := by
  rw [credentialsMatch_eq hnul hfit]
  constructor
  · intro hparts
    obtain ⟨granted, hgranted, hiff⟩ := hparts
    exact pairSettled_of_exact hgranted hiff
  · exact exact_of_pairSettled

end Decision

/-- The two comparisons decide the cookies and the text of the answer. -/
theorem exact_response_iff (content u p : Bytes) (user admin : Bool) :
    Exact content u p {
      cookies := (if user then [loginCookie 1] else []) ++ (if admin then [loginCookie 2] else [])
      body := if user || admin then okMsg else errMsg } ↔
    (user = true ↔ Configured content (text "username") (text "userpw") u p) ∧
      (admin = true ↔ Configured content (text "adminname") (text "adminpw") u p) := by
  have h12 : loginCookie 1 ≠ loginCookie 2 := by decide
  have h21 : loginCookie 2 ≠ loginCookie 1 := h12.symm
  have hmsg : errMsg ≠ okMsg := by decide
  constructor
  · intro h
    have huser := h.user
    have hadmin := h.admin
    cases user <;> cases admin <;> simp_all
  · intro hparts
    obtain ⟨huser, hadmin⟩ := hparts
    constructor <;> cases user <;> cases admin <;> simp_all

/-- **The login decision, exactly.**  For a file whose lines fit and a submission
without line ends, the page answers as the settings ask if and only if both
pairs of keys are settled. -/
theorem login_exact_iff {content u p : Bytes} {form : List FormEntry} (hnul : 0 ∉ content)
    (hfit : ∀ line ∈ lines content, line.length ≤ maxLine - 1)
    (hform : (form.find? fun entry => entry.attr = text "username").map FormEntry.value =
        some u ∧
      (form.find? fun entry => entry.attr = text "password").map FormEntry.value = some p)
    (hu : newline ∉ u ∧ carriageReturn ∉ u) (hp : newline ∉ p ∧ carriageReturn ∉ p) :
    (∃ response, cgiMain (some content) form = some response ∧ Exact content u p response) ↔
      PairSettled content (text "username") (text "userpw") u p ∧
        PairSettled content (text "adminname") (text "adminpw") u p := by
  have hsubmitted : ∀ (name value : Bytes),
      (form.find? fun entry => entry.attr = name).map FormEntry.value = some value →
      newline ∉ value ∧ carriageReturn ∉ value →
      (cgiFormStringNoNewlines form name 20).1 = value.take 19 := by
    intro name value hfind hclean
    obtain ⟨entry, hentry, hvalue⟩ := Option.map_eq_some_iff.mp hfind
    subst hvalue
    have hloop := entryStringLoop_eq 19 entry.value [] false hclean.1 hclean.2 (by simp)
    unfold cgiFormStringNoNewlines
    rw [hentry]
    simpa [cgiFormEntryString] using hloop
  rw [← credentialsMatch_exact_iff hnul hfit, ← credentialsMatch_exact_iff hnul hfit]
  unfold cgiMain
  rw [hsubmitted _ u hform.1 hu, hsubmitted _ p hform.2 hp]
  constructor
  · intro hparts
    obtain ⟨response, hresponse, hexact⟩ := hparts
    obtain ⟨user, huser, hresponse⟩ := Option.bind_eq_some_iff.mp hresponse
    obtain ⟨admin, hadmin, hresponse⟩ := Option.bind_eq_some_iff.mp hresponse
    rw [← Option.some.inj hresponse, exact_response_iff] at hexact
    exact ⟨⟨user, huser, hexact.1⟩, ⟨admin, hadmin, hexact.2⟩⟩
  · intro hparts
    obtain ⟨⟨user, huser, huserIff⟩, ⟨admin, hadmin, hadminIff⟩⟩ := hparts
    refine ⟨_, ?_, (exact_response_iff content u p user admin).mpr ⟨huserIff, hadminIff⟩⟩
    simp [huser, hadmin]

/-- The credentials the repository ships. -/
def shippedSettings : Bytes :=
  text "username=blockstream\nuserpw=blockstream\nadminname=admin\nadminpw=admin\n"

/-- With the shipped credentials the premises hold for an administrator's
submission, and the page answers it as the settings ask. -/
theorem login_exact_shipped :
    let form : List FormEntry :=
      [⟨text "username", text "admin"⟩, ⟨text "password", text "admin"⟩]
    (0 ∉ shippedSettings ∧ ∀ line ∈ lines shippedSettings, line.length ≤ maxLine - 1) ∧
    ((∃ response, cgiMain (some shippedSettings) form = some response ∧
        Exact shippedSettings (text "admin") (text "admin") response) ↔
      PairSettled shippedSettings (text "username") (text "userpw") (text "admin") (text "admin") ∧
        PairSettled shippedSettings (text "adminname") (text "adminpw") (text "admin")
          (text "admin")) ∧
    cgiMain (some shippedSettings) form = some ⟨[loginCookie 2], okMsg⟩ := by
  intro form
  have hnul : 0 ∉ shippedSettings := by decide
  have hfit : ∀ line ∈ lines shippedSettings, line.length ≤ maxLine - 1 := by decide
  exact ⟨⟨hnul, hfit⟩, login_exact_iff hnul hfit (by decide) (by decide) (by decide), by decide⟩

/-- A user name of nineteen bytes. -/
def longName : Bytes := text "abcdefghijklmnopqrs"

/-- A submission one byte too long for the buffer logs in as the user whose name
is its first nineteen bytes. -/
theorem login_accepts_longer_name :
    let content := text "username=abcdefghijklmnopqrs\nuserpw=b\nadminname=c\nadminpw=d\n"
    let form : List FormEntry :=
      [⟨text "username", longName ++ text "t"⟩, ⟨text "password", text "b"⟩]
    (0 ∉ content ∧ ∀ line ∈ lines content, line.length ≤ maxLine - 1) ∧
      cgiMain (some content) form = some ⟨[loginCookie 1], okMsg⟩ ∧
      ¬Configured content (text "username") (text "userpw") (longName ++ text "t") (text "b") ∧
      ¬∃ response, cgiMain (some content) form = some response ∧
        Exact content (longName ++ text "t") (text "b") response := by
  intro content form
  have hanswer : cgiMain (some content) form = some ⟨[loginCookie 1], okMsg⟩ := by decide
  have hnot : ¬Configured content (text "username") (text "userpw") (longName ++ text "t")
      (text "b") := by decide
  refine ⟨by decide, hanswer, hnot, ?_⟩
  intro hparts
  obtain ⟨response, hresponse, hexact⟩ := hparts
  have heq : response = ⟨[loginCookie 1], okMsg⟩ :=
    Option.some.inj (hresponse.symm.trans hanswer)
  subst heq
  exact hnot (hexact.user.mp List.mem_cons_self)

end Login
