import WebcomSdk.Lib.Run
import WebcomSdk.Lib.Loop
import WebcomSdk.Lib.Cover
import WebcomSdk.Lib.LexPrefix
import WebcomSdk.Lib.BigEndian
import WebcomSdk.Lib.OuterJoin
import WebcomSdk.Lib.PathMap
import WebcomSdk.Collection.Avl
import WebcomSdk.Collection.AvlBalance
import WebcomSdk.Collection.AvlMap
import WebcomSdk.Collection.AvlIterator
import WebcomSdk.Collection.AvlSet
import WebcomSdk.Collection.AvlPeek
import WebcomSdk.Collection.AvlAgree
import WebcomSdk.Datasync.Path
import WebcomSdk.Datasync.PathBuffer
import WebcomSdk.Datasync.PathOffsets
import WebcomSdk.Datasync.PathWrap
import WebcomSdk.Datasync.PathTree
import WebcomSdk.Datasync.ListenRegistry
import WebcomSdk.Datasync.ListenCoverage
import WebcomSdk.Datasync.ListenRefs
import WebcomSdk.Datasync.ListenKeys
import WebcomSdk.Datasync.ListenMoves
import WebcomSdk.Datasync.ListenOverlap
import WebcomSdk.Datasync.ListenAnswers
import WebcomSdk.Datasync.ListenServer
import WebcomSdk.Cache.Treenode
import WebcomSdk.Cache.Json
import WebcomSdk.Cache.DataCache
import WebcomSdk.Cache.CacheHash
import WebcomSdk.Cache.CacheFrame
import WebcomSdk.Cache.TreenodeJson
import WebcomSdk.Cache.WaitData
import WebcomSdk.Cache.CacheReads
import WebcomSdk.Cache.KeyAgreement
import WebcomSdk.Cache.NamesKept
import WebcomSdk.Datasync.Message
import WebcomSdk.Datasync.Parser
import WebcomSdk.Datasync.RoundTrip
import WebcomSdk.Datasync.Connection
import WebcomSdk.Datasync.Decoding
import WebcomSdk.Datasync.KeyCmp
import WebcomSdk.Datasync.KeyOrder
import WebcomSdk.Datasync.Reconnect
import WebcomSdk.Datasync.Requests
import WebcomSdk.Datasync.PushId
import WebcomSdk.On.OnRegistry
import WebcomSdk.On.Dispatch
import WebcomSdk.On.Reentrancy
import WebcomSdk.On.Registrations
import WebcomSdk.On.RefCounts
import WebcomSdk.On.ChildTriggers
import WebcomSdk.On.QuietSteps
import WebcomSdk.On.OnValue
import WebcomSdk.On.OnChild
import WebcomSdk.On.Cancellation
import WebcomSdk.Cache.JsonText
import WebcomSdk.Cache.CacheView
import WebcomSdk.Cache.NullWrites
import WebcomSdk.Cache.PathTexts
import WebcomSdk.Cache.Merges
import WebcomSdk.Cache.MergeLaw
import WebcomSdk.Datasync.SendFailures
import WebcomSdk.On.Additions
import WebcomSdk.On.AlreadyListening
import WebcomSdk.On.DispatchOrder
import WebcomSdk.On.ChildEvents
import WebcomSdk.On.TriggerEffects
import WebcomSdk.Datasync.ListenRoot
import WebcomSdk.On.ListenSteps
import WebcomSdk.On.Schedule
import WebcomSdk.On.FirstAddition
import WebcomSdk.On.DispatchEnds
import WebcomSdk.On.ToldOnce
import WebcomSdk.Tools.WcshParse
import WebcomSdk.Tools.Lexemes
import WebcomSdk.Tools.TokenBuffers
import WebcomSdk.Tools.Chunks
import WebcomSdk.Tools.Quoting
import WebcomSdk.Datasync.EncodingOrder
import WebcomSdk.Cache.Base64
import WebcomSdk.Lib.JsonSyntax
import WebcomSdk.Cache.EscapedStrings
import WebcomSdk.Cache.JsonOutput
import WebcomSdk.Cache.HashText
import WebcomSdk.Datasync.PathHash
import WebcomSdk.Datasync.PathKeys
import WebcomSdk.Collection.AvlPeekStart
import WebcomSdk.Collection.AvlGrowth
import WebcomSdk.Collection.AvlStack
import WebcomSdk.Lib.Buckets
import WebcomSdk.Collection.Ht
import WebcomSdk.Collection.HtIterator
import WebcomSdk.Collection.HtMap
import WebcomSdk.Collection.HtRemove
import WebcomSdk.Auth.PasswordAuth
import WebcomSdk.Lib.Sha1
import WebcomSdk.Hash.Sha1Transform
import WebcomSdk.Hash.Sha1
import WebcomSdk.Cache.TreeDigest
import WebcomSdk.Lib.Bisect
import WebcomSdk.Lib.LinkedQueue
import WebcomSdk.Tools.Commands
import WebcomSdk.Tools.Program
import WebcomSdk.Tools.Shell
import WebcomSdk.Tools.Script
import WebcomSdk.Client.Wire
import WebcomSdk.Client.Replica
import WebcomSdk.Event.Libev
import WebcomSdk.Collection.AvlMemory
import WebcomSdk.Collection.AvlMemoryTree
import WebcomSdk.Collection.AvlMemoryRuns
import WebcomSdk.On.OnKeys
