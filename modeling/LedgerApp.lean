import LedgerApp.Bytes
import LedgerApp.Outcome
import LedgerApp.Json11.Basic
import LedgerApp.Json11.Dump
import LedgerApp.Json11.Parse
import LedgerApp.Json11.Lemmas.Scan
import LedgerApp.Json11.Lemmas.Total
import LedgerApp.Json11.Lemmas.Extend
import LedgerApp.Json11.Lemmas.Value
import LedgerApp.Json11.Lemmas.RoundTrip
import LedgerApp.Json11.Lemmas.Reads
import LedgerApp.Json11.Lemmas.ParseDump
import LedgerApp.Json11.Lemmas.Parsed
import LedgerApp.Json11.Grammar
import LedgerApp.Json11.Lemmas.Tokens
import LedgerApp.Json11.Lemmas.Accepts
import LedgerApp.Closures
import LedgerApp.Client
import LedgerApp.Api
import LedgerApp.Transition
import LedgerApp.Machine
import LedgerApp.Lemmas.Client
import LedgerApp.Addresses
import LedgerApp.ViewModel
import LedgerApp.Registry
import LedgerApp.NodeDispatcher
import LedgerApp.ObjcDispatcher
import LedgerApp.ObjcContext
import LedgerApp.Lemmas.ObjcContext
import LedgerApp.LockDiscipline
import LedgerApp.Conservation
import LedgerApp.Delays
import LedgerApp.Stage
import LedgerApp.Lemmas.Stage
import LedgerApp.Ownership
import LedgerApp.Lemmas.Machine
import LedgerApp.Trace
import LedgerApp.Json11.Integers
import LedgerApp.Json11.Multi
import LedgerApp.Json11.Nesting
import LedgerApp.Precedence
import LedgerApp.Causality
import LedgerApp.Separation
import LedgerApp.Lemmas.Platform
import LedgerApp.Answers
import LedgerApp.Captures
import LedgerApp.Order
import LedgerApp.Channels
import LedgerApp.Genuine
import LedgerApp.Node
import LedgerApp.Lemmas.Node
import LedgerApp.Continuations
import LedgerApp.Lemmas.Jobs
import LedgerApp.Lemmas.Handles
import LedgerApp.Failures
import LedgerApp.Turns
import LedgerApp.Environment
import LedgerApp.Lemmas.Environment
import LedgerApp.Confinement
import LedgerApp.Observers
import LedgerApp.Sequential
import LedgerApp.Schedule
import LedgerApp.Confluence
import LedgerApp.Platforms
import LedgerApp.Lemmas.Settlement
import LedgerApp.Settlement
import LedgerApp.Budget
import LedgerApp.Work
import LedgerApp.Completion
import LedgerApp.Faults
import LedgerApp.Lemmas.Return
import LedgerApp.Return
import LedgerApp.Identity
import LedgerApp.Djinni.ProxyCache
import LedgerApp.Djinni.Lemmas.ProxyCache
import LedgerApp.Djinni.Identity
import LedgerApp.Djinni.Cleanup
import LedgerApp.Transcode
import LedgerApp.Djinni.Strings
import LedgerApp.Djinni.Crossing
import LedgerApp.Djinni.JsonStrings
