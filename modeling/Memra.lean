import Memra.Server.PrefixCache
import Memra.Lib.SlotIndex
import Memra.Server.Proof.PrefixCacheRep
import Memra.Server.Proof.PrefixCacheRun
import Memra.Lib.Draw
import Memra.Engine.Constraint
import Memra.Engine.Spec
import Memra.Engine.Proof.SpecRound
import Memra.Engine.Proof.SpecSession
import Memra.Engine.Proof.SpecGreedy
import Memra.Engine.Proof.SpecConstrained
import Memra.Lib.Rejection
import Memra.Engine.Proof.SpecSampled
import Memra.Engine.Proof.SpecNeutral
import Memra.Engine.Proof.Boundary
import Memra.Engine.Proof.MoePool
import Memra.Lib.Sweep
import Memra.Server.Admit
import Memra.Server.Proof.StopScrubber
import Memra.Server.Proof.Slots
import Memra.Engine.Proof.PlainGraph
import Memra.Engine.Proof.GemmaSpec
import Memra.Engine.Proof.DecodeGraph
import Memra.Server.Proof.SpecResume
import Memra.Server.Proof.ToolCall
import Memra.Server.Proof.ToolBlocks
import Memra.Server.Proof.ToolRender
import Memra.Server.Proof.Emission
import Memra.Server.Proof.KeyStore
import Memra.Server.Proof.DarkLane
import Memra.Server.Proof.Health
import Memra.Tokenizer.Proof.Encode
import Memra.Gguf.Proof.Robust
import Memra.Gguf.Proof.Split
import Memra.Server.Proof.Utf8Delta
import Memra.Server.Proof.Constrained
import Memra.Server.Proof.Prefill
import Memra.Server.Proof.SpecStep
import Memra.Tokenizer.Proof.ChatTemplate
import Memra.Server.Proof.KeyGen
import Memra.Tokenizer.Proof.Greedy
import Memra.Tokenizer.Proof.Qwen35
import Memra.Tokenizer.Proof.DeepseekV3
import Memra.Tokenizer.Proof.Json
import Memra.Sampling.Proof.Sampler
import Memra.Engine.Proof.DraftGraph
import Memra.Kv.Proof.Cache
import Memra.Engine.Proof.Pp
import Memra.Engine.Proof.Slru
import Memra.Engine.Proof.SizeClass
import Memra.Gguf.Proof.Nvfp4
import Memra.Gguf.Proof.HfMapping
import Memra.Gguf.Proof.JsonObjText
import Memra.Gguf.Proof.Narrow
import Memra.Gguf.Proof.Safetensors
import Memra.Gguf.Proof.Repack
import Memra.Gguf.Proof.Source
import Memra.Server.Lanes
import Memra.Server.Proof.Admission
import Memra.Server.Proof.SchedulerBooks
import Memra.Server.Proof.SchedulerLedger
import Memra.Server.Proof.Tracked
import Memra.Server.Proof.SchedulerTracked
import Memra.Server.Proof.SchedulerBounds
