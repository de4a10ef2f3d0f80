import Lokicat.Batching

/-!
# The command line

`main` takes `--url=URL` and nothing else: the documented `--input=logread` is
answered with the usage text. The URL of the pushes is put together in an array
of fixed size, which cuts off what is too long for it.
-/

namespace Lokicat.CommandLine

open Batching CString Iteration Logproto MainLoop MainSteps Push

/-- The messages `main` dies with before its loop. -/
inductive Death where
  /-- `"usage: lokicat --url=URL\n\nRun a loki forwarder\nOptions:\n  --url=URL  URL for the loki
  API.\n  --input=logread Choose input, default is logread.\n"` -/
  | usage : Death
  /-- `"missing --url=URL"` -/
  | missingUrl : Death
  /-- `"invalid or missing --input="` -/
  | invalidInput : Death
  deriving DecidableEq, Repr

/-- `"--url="` -/
def urlOption : List Byte := ascii ['-', '-', 'u', 'r', 'l', '=']

/-- `"--input=logread"` -/
def inputOption : List Byte :=
  ascii ['-', '-', 'i', 'n', 'p', 'u', 't', '=', 'l', 'o', 'g', 'r', 'e', 'a', 'd']

/-- `"/api/prom/push"` -/
def pushPath : List Byte :=
  ascii ['/', 'a', 'p', 'i', '/', 'p', 'r', 'o', 'm', '/', 'p', 'u', 's', 'h']

def demoName : List Byte := ascii ['d', 'e', 'm', 'o']

def logreadName : List Byte := ascii ['l', 'o', 'g', 'r', 'e', 'a', 'd']

def inputName : List Byte := logreadName

/-- The size of the array `url`. -/
def urlSize : Nat := 255

/-- `memcmp` over the length of the second string. -/
def startsWith (str start : List Byte) : Bool := str.take start.length == start

/-- The string behind its first `=`. -/
def strchrEquals (str : List Byte) : List Byte := (str.dropWhile (· != 61)).drop 1

/-- `snprintf` of a text into an array: what fits before the terminator. -/
def snprintf (size : Nat) (text : List Byte) : List Byte := text.take (size - 1)

/-- One round of the argument loop: a URL replaces the one before. -/
def parseArg (_ : Option (List Byte)) (arg : List Byte) :
    Except Death (Option (List Byte)) :=
  if startsWith arg urlOption then .ok (some (strchrEquals arg)) else .error .usage

/-- The URL for the pushes. The array that holds it belongs to a block that has ended when
it is used; its storage is taken to be intact. -/
def parseArgs (args : List (List Byte)) : Except Death (List Byte) := do
  let lokiUrl ← args.foldlM parseArg none
  match lokiUrl with
  | none => .error .missingUrl
  | some lokiUrl =>
    let url := snprintf urlSize (lokiUrl ++ pushPath)
    if inputName ≠ demoName ∧ inputName ≠ logreadName then
      .error .invalidInput
    else .ok url

/-- The configuration of the loop for some arguments. -/
def start (cfg : Config) (args : List (List Byte)) : Except Death Config :=
  (parseArgs args).map (fun url => { cfg with lokiUrl := url })

/-- The URL of an option `--url=`. -/
def urlOf (arg : List Byte) : Option (List Byte) :=
  if startsWith arg urlOption then some (arg.drop urlOption.length) else none

/-- The URL of the last option `--url=`. -/
def lastUrl (args : List (List Byte)) : Option (List Byte) := (args.filterMap urlOf).getLast?

/-- The arguments of the usage text. -/
def Documented (arg : List Byte) : Prop := (∃ url, arg = urlOption ++ url) ∨ arg = inputOption

/-- `main` gets to its loop, and every push of every run is one against the URL. -/
def PushesTo (cfg : Config) (args : List (List Byte)) (url : List Byte) : Prop :=
  ∃ cfg', start cfg args = .ok cfg' ∧ cfg'.lokiUrl = url ∧
    ∀ turns, ∀ s ∈ sents (runMain cfg' turns).trace,
      s.log = (sendPushRequest s.request url s.outcome).2

/-- The log of a request is that of a push against the URL of the configuration. -/
def Against (cfg : Config) (s : Sent) : Prop :=
  s.log = (sendPushRequest s.request cfg.lokiUrl s.outcome).2

/-- Every request is passed to `send_push_request` with the URL of the configuration. -/
theorem sent_against (cfg : Config) (turns : List Turn) :
    ∀ s ∈ sents (runMain cfg turns).trace, Against cfg s := by
  have hflush : ∀ (cause : Cause) (o : PushOutcome) (st : State),
      (∀ s ∈ sents st.trace, Against cfg s) →
        ∀ s ∈ sents (flush cfg cause o st).trace, Against cfg s := by
    intro cause o st h
    rw [flush_trace, sents_append, List.forall_mem_append]
    exact ⟨h, List.forall_mem_singleton.mpr rfl⟩
  apply runMain_micros (fun st => ∀ s ∈ sents st.trace, Against cfg s)
  · intro s hs
    cases hs
  · intro st st' h inv
    cases h with
    | look now o =>
      have hlooked : ∀ s ∈ sents (st.emit (.looked now)).trace, Against cfg s := by
        simpa [State.emit, sents] using inv
      obtain ⟨-, hcheck⟩ | ⟨-, -, hcheck⟩ | ⟨-, hcheck⟩ := ageCheck_cases cfg now o st
      · rwa [hcheck]
      · rwa [hcheck]
      · rw [hcheck]
        exact hflush _ _ _ hlooked
    | line env =>
      have hpushed : ∀ s ∈ sents
          (pushEntry env (st.emit (.completed st.entry env.parseClock))).trace, Against cfg s := by
        simpa [pushEntry, State.emit, sents] using inv
      obtain ⟨-, hstore⟩ | ⟨-, hstore⟩ :=
        storeEntry_cases cfg env (st.emit (.completed st.entry env.parseClock))
      · rwa [hstore]
      · rw [hstore]
        exact hflush _ _ _ hpushed
    | quiet _ _ as silent trace =>
      rwa [trace, sents_append, sents_quiet silent, List.append_nil]

/-- The text behind the `=` of an option. -/
theorem strchrEquals_option (url : List Byte) : strchrEquals (urlOption ++ url) = url := rfl

theorem startsWith_option (url : List Byte) : startsWith (urlOption ++ url) urlOption = true := by
  simp [startsWith]

theorem startsWith_input : startsWith inputOption urlOption = false := by decide

theorem urlOf_option (url : List Byte) : urlOf (urlOption ++ url) = some url := by
  rw [urlOf, if_pos (startsWith_option url), List.drop_left]

/-- Options with a URL are all read, and the last one counts. -/
theorem foldlM_options {args : List (List Byte)} (h : ∀ a ∈ args, ∃ url, a = urlOption ++ url)
    (acc : Option (List Byte)) :
    args.foldlM parseArg acc = .ok ((lastUrl args).or acc) := by
  induction args using List.reverseRecOn with
  | nil => rfl
  | append_singleton args a ih =>
    obtain ⟨url, rfl⟩ := h a (by simp)
    rw [List.foldlM_append, ih (fun b hb => h b (by simp [hb]))]
    simp [parseArg, startsWith_option, strchrEquals_option, lastUrl, urlOf_option]
    rfl

/-- The first argument that is no option with a URL is answered with the usage text. -/
theorem foldlM_other {args : List (List Byte)} (h : ∃ a ∈ args, startsWith a urlOption = false)
    (acc : Option (List Byte)) : args.foldlM parseArg acc = .error .usage := by
  induction args generalizing acc with
  | nil => simp at h
  | cons a args ih =>
    rw [List.foldlM_cons]
    cases ha : startsWith a urlOption with
    | false =>
      simp only [parseArg, ha, Bool.false_eq_true, if_false]
      rfl
    | true =>
      have hrest : ∃ a ∈ args, startsWith a urlOption = false := by
        obtain ⟨b, hb, hother⟩ := h
        rcases List.mem_cons.mp hb with rfl | hb
        · rw [ha] at hother
          cases hother
        · exact ⟨b, hb, hother⟩
      simp only [parseArg, ha, if_true]
      exact ih hrest _

/-- The array has room for 240 bytes and the path. -/
theorem snprintf_url (url : List Byte) :
    snprintf urlSize (url ++ pushPath) = url ++ pushPath ↔ url.length ≤ 240 := by
  have hpath : pushPath.length = 14 := rfl
  rw [snprintf, List.take_eq_self_iff, List.length_append, hpath, urlSize]
  omega

/-- With documented arguments every push is one against the whole URL of the last `--url=`,
with the path behind it, exactly when there is no `--input=logread` and the URL has at
most 240 bytes. -/
theorem full_url_iff (cfg : Config) (args : List (List Byte)) (url : List Byte)
    (documented : ∀ a ∈ args, Documented a) (last : lastUrl args = some url) :
    PushesTo cfg args (url ++ pushPath) ↔ inputOption ∉ args ∧ url.length ≤ 240 := by
  by_cases hinput : inputOption ∈ args
  · have hstart : start cfg args = .error .usage := by
      simp only [start, parseArgs, foldlM_other ⟨inputOption, hinput, startsWith_input⟩]
      rfl
    simp only [hinput, not_true_eq_false, false_and, iff_false]
    rintro ⟨cfg', hok, -⟩
    rw [hstart] at hok
    cases hok
  · have hoptions : ∀ a ∈ args, ∃ url, a = urlOption ++ url :=
      fun a ha => (documented a ha).resolve_right (fun h => hinput (h ▸ ha))
    have hstart : start cfg args =
        .ok { cfg with lokiUrl := snprintf urlSize (url ++ pushPath) } := by
      simp only [start, parseArgs, foldlM_options hoptions, last]
      rfl
    rw [← snprintf_url url]
    simp only [hinput, not_false_eq_true, true_and]
    constructor
    · rintro ⟨cfg', hok, hurl, -⟩
      rw [hstart, Except.ok.injEq] at hok
      rw [← hok] at hurl
      exact hurl
    · intro hurl
      refine ⟨_, hstart, hurl, ?_⟩
      intro turns s hs
      have hagainst := sent_against _ turns s hs
      rw [Against, hurl] at hagainst
      exact hagainst

/-- `"http://localhost:3100"` -/
def localhostUrl : List Byte :=
  ascii ['h', 't', 't', 'p', ':', '/', '/', 'l', 'o', 'c', 'a', 'l', 'h', 'o', 's', 't', ':', '3',
    '1', '0', '0']

/-- The option alone, given twice. -/
theorem localhost_pushed_to :
    PushesTo utcConfig [urlOption ++ [61], urlOption ++ localhostUrl] (localhostUrl ++ pushPath) ↔
      inputOption ∉ [urlOption ++ [61], urlOption ++ localhostUrl] ∧ localhostUrl.length ≤ 240 :=
  full_url_iff utcConfig [urlOption ++ [61], urlOption ++ localhostUrl] localhostUrl
    (fun a ha => by
      obtain rfl | ha := List.mem_cons.mp ha
      · exact .inl ⟨_, rfl⟩
      · exact .inl ⟨_, List.mem_singleton.mp ha⟩)
    (by decide)

/-- The command line of the README is answered with the usage text. -/
theorem readme_command_line_dies :
    ¬ ∀ (cfg : Config) (args : List (List Byte)) (url : List Byte),
      (∀ a ∈ args, Documented a) → lastUrl args = some url →
        PushesTo cfg args (url ++ pushPath) := by
  intro h
  obtain ⟨cfg', hok, -⟩ := h utcConfig [urlOption ++ localhostUrl, inputOption] localhostUrl
    (fun a ha => by
      obtain rfl | ha := List.mem_cons.mp ha
      · exact .inl ⟨_, rfl⟩
      · exact .inr (List.mem_singleton.mp ha))
    (by decide)
  have hstart : start utcConfig [urlOption ++ localhostUrl, inputOption] = .error .usage := rfl
  rw [hstart] at hok
  cases hok

end Lokicat.CommandLine
